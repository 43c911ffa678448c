import Bao.Graph.BreadthFirst
import Bao.Graph.NaturalLoop
import Bao.Schematic.LoopAnalyzer

/-!
# Synthesized loop paths

`synthesizeLoopPaths` completes the paths that were parsed for a loop: a direct member on none of
them gets a path from the header to the latch, glued from two breadth-first searches over the loop
with its inner loops contracted to their headers.

* In a reducible function the only cycle of that graph goes through an inner loop that contains the
  latch (`reducedStep_forward`), so the two halves never meet (`isReducedPath_glued`).
* The synthesis succeeds just if every member that lacks a path lies on one, it adds such paths
  only, and in the end every direct member has a path (`synthesizeLoopPaths_isComplete`).
-/

namespace Bao.Schematic

open Bao.Graph Relation

/-! ### The reduced graph -/

/-- `llvm::successors`. -/
def CFGAnalysis.successors (cfg : CFGAnalysis) (bb : BasicBlock) : List BasicBlock :=
  (cfg.edges.filter fun e => e.1 = bb).map Prod.snd

/-- `getExitBlocks`: the targets of the edges that leave the loop. -/
def Loop.getExitBlocks (L : Loop) (cfg : CFGAnalysis) : List BasicBlock :=
  L.blocks.flatMap fun bb => (cfg.successors bb).filter fun succ => !L.contains succ

namespace LoopInfo

variable (LI : LoopInfo) (cfg : CFGAnalysis)

/-- `getParentLoop`: the innermost loop around a loop. -/
def getParentLoop (L : Loop) : Option Loop :=
  LI.loops.find? fun M => decide (M ≠ L) && M.contains L.header

/-- From a loop outwards, up to the loops in `parent`. -/
def climb (parent : Loop) : ℕ → Option Loop → Option Loop
  | 0, owner => owner
  | _ + 1, none => none
  | fuel + 1, some owner =>
    if owner = parent ∨ LI.getParentLoop owner = some parent then some owner
    else climb parent fuel (LI.getParentLoop owner)

/-- **`getImmediateChildLoop`**: the loop directly inside `parent` that contains the block. -/
def getImmediateChildLoop (parent : Loop) (bb : BasicBlock) : Option Loop :=
  match LI.climb parent (LI.loops.length + 1) (LI.getLoopFor bb) with
  | some owner => if owner = parent then none else some owner
  | none => none

/-- **`getReducedSuccessors`**: an inner loop is left from its header, to its exit blocks, and the
back edge is missing. -/
def getReducedSuccessors (L : Loop) (bb : BasicBlock) : List BasicBlock :=
  match LI.getImmediateChildLoop L bb with
  | some child =>
    if bb ≠ child.header then []
    else ((child.getExitBlocks cfg).filter fun exitBB => L.contains exitBB).eraseDups
  | none =>
    (cfg.successors bb).filter fun succ =>
      L.contains succ && !(decide (some bb = L.latch) && decide (succ = L.header))

/-- **`findReducedPath`**. The search expands every block of the loop once at most. -/
def findReducedPath (L : Loop) (src dst : BasicBlock) : Option (List BasicBlock) :=
  BreadthFirst.findPath (LI.getReducedSuccessors cfg L) src dst (L.blocks.length + 1)

/-! ### The synthesis -/

/-- A synthesized path counts once. -/
def makeEnumeratedPath (blocks : List BasicBlock) : EnumeratedPath := ⟨blocks.map .real, 1⟩

/-- The member is on one of the paths. -/
def isCovered (paths : List EnumeratedPath) (member : Block) : Bool :=
  paths.any fun path => member ∈ path.blocks

/-- **`coversAllDirectMembers`**. -/
def coversAllDirectMembers (trace : LoadedLoopTrace) : Bool :=
  trace.members.all fun member =>
    match member.getLLVMBlock with
    | some bb =>
      decide (LI.getLoopFor bb ≠ some trace.loop) || isCovered trace.iterationPaths member
    | none => true

/-- Adds a path for a direct member that is on none. -/
def synthesizeMember (name : BasicBlock → String) (L : Loop) (latch : BasicBlock)
    (paths : List EnumeratedPath) (member : Block) : Except String (List EnumeratedPath) :=
  match member.getLLVMBlock with
  | none => .ok paths
  | some memberBB =>
    if LI.getLoopFor memberBB ≠ some L ∨ isCovered paths member then .ok paths
    else
      match LI.findReducedPath cfg L L.header memberBB, LI.findReducedPath cfg L memberBB latch with
      | some front, some back =>
        let syntheticPath := makeEnumeratedPath (front ++ back.tail)
        if paths.any fun path => path.blocks = syntheticPath.blocks then .ok paths
        else .ok (paths ++ [syntheticPath])
      | _, _ => .error ("cannot synthesize header-to-latch path covering direct member '" ++
          name memberBB ++ "'")

/-- The path of a loop that has none. -/
def canonicalPaths (name : BasicBlock → String) (L : Loop) (latch : BasicBlock)
    (paths : List EnumeratedPath) : Except String (List EnumeratedPath) :=
  if paths.isEmpty then
    match LI.findReducedPath cfg L L.header latch with
    | some path => .ok (paths ++ [makeEnumeratedPath path])
    | none => .error ("cannot synthesize any header-to-latch path for loop '" ++ name L.header ++
        "'")
  else .ok paths

/-- **`synthesizeLoopPaths`**. -/
def synthesizeLoopPaths (name : BasicBlock → String) (trace : LoadedLoopTrace) :
    Except String LoadedLoopTrace := do
  let L := trace.loop
  match L.latch with
  | none => throw "missing canonical loop header/latch"
  | some latch =>
    let paths ← trace.members.foldlM (LI.synthesizeMember cfg name L latch) trace.iterationPaths
    let paths ← LI.canonicalPaths cfg name L latch paths
    if !LI.coversAllDirectMembers { trace with iterationPaths := paths } then
      throw ("synthetic trace augmentation left uncovered direct members in loop '" ++
        name L.header ++ "'")
    return { trace with iterationPaths := paths.mergeSort fun a b => b.count ≤ a.count }

/-! ### Loops of a function -/

/-- An edge of the function. -/
def Edge (cfg : CFGAnalysis) (a b : BasicBlock) : Prop := (a, b) ∈ cfg.edges

instance : DecidableRel (Edge cfg) := fun a b => inferInstanceAs (Decidable ((a, b) ∈ cfg.edges))

/-- The loops are the natural loops of the function, inner loops first; a latch is the only source
of a back edge. -/
structure Describes (entry : BasicBlock) : Prop where
  mem_iff : ∀ L ∈ LI.loops, ∀ bb, bb ∈ L.blocks ↔ InLoop (Edge cfg) entry L.header bb
  isHeader : ∀ L ∈ LI.loops, IsHeader (Edge cfg) entry L.header
  complete : ∀ h, IsHeader (Edge cfg) entry h → ∃ L ∈ LI.loops, L.header = h
  inner_first : LI.loops.Pairwise fun L M => M.header ∉ L.blocks
  latch : ∀ L ∈ LI.loops, ∀ l, L.latch = some l → IsBackEdge (Edge cfg) entry l L.header ∧
    ∀ l', IsBackEdge (Edge cfg) entry l' L.header → l' = l

section Nesting

variable {LI cfg} {entry bb : BasicBlock} {L M N : Loop}

theorem Describes.reachable_header (h : LI.Describes cfg entry) (hL : L ∈ LI.loops) :
    ReflTransGen (Edge cfg) entry L.header := by
  obtain ⟨l, hback⟩ := h.isHeader L hL
  exact hback.reachable.tail hback.succ

private theorem header_mem (L : Loop) : L.header ∈ L.blocks :=
  List.mem_of_mem_head? L.header_first

/-- Loops with one header are one loop. -/
theorem Describes.header_injective (h : LI.Describes cfg entry) (hL : L ∈ LI.loops)
    (hM : M ∈ LI.loops) (heq : L.header = M.header) : L = M := by
  obtain ⟨pre, post, hsplit⟩ := List.append_of_mem hL
  have hpair := h.inner_first
  rw [hsplit, List.pairwise_append, List.pairwise_cons] at hpair
  obtain ⟨-, ⟨hpost, -⟩, hpre⟩ := hpair
  rw [hsplit] at hM
  rcases List.mem_append.mp hM with hM | hM
  · exact absurd (heq ▸ header_mem M) (hpre M hM L List.mem_cons_self)
  · rcases List.mem_cons.mp hM with rfl | hM
    · rfl
    · exact absurd (heq ▸ header_mem L) (hpost M hM)

/-- Of two loops that meet, the first in the list is the inner one. -/
theorem Describes.header_mem_of_meet (h : LI.Describes cfg entry) {pre post : List Loop}
    (hsplit : LI.loops = pre ++ L :: post) (hM : M ∈ post) (hL : bb ∈ L.blocks)
    (hM' : bb ∈ M.blocks) : L.header ∈ M.blocks := by
  have hLl : L ∈ LI.loops := by simp [hsplit]
  have hMl : M ∈ LI.loops := by simp [hsplit, hM]
  have hfirst : M.header ∉ L.blocks := by
    have hpair := h.inner_first
    rw [hsplit, List.pairwise_append] at hpair
    exact (List.pairwise_cons.mp hpair.2.1).1 M hM
  rcases InLoop.nested ((h.mem_iff L hLl bb).mp hL) ((h.mem_iff M hMl bb).mp hM') with hin | hin
  · exact absurd ((h.mem_iff L hLl _).mpr hin) hfirst
  · exact (h.mem_iff M hMl _).mpr hin

/-- A loop whose header is in another one is part of it. -/
theorem Describes.subset (h : LI.Describes cfg entry) (hL : L ∈ LI.loops) (hM : M ∈ LI.loops)
    (hheader : M.header ∈ L.blocks) (hbb : bb ∈ M.blocks) : bb ∈ L.blocks :=
  (h.mem_iff L hL bb).mpr (((h.mem_iff L hL _).mp hheader).of_header ((h.mem_iff M hM bb).mp hbb))

/-- **`getLoopFor`** returns the innermost loop: its header is in every other one of the block. -/
theorem Describes.getLoopFor_spec (h : LI.Describes cfg entry) (hM : LI.getLoopFor bb = some M) :
    M ∈ LI.loops ∧ bb ∈ M.blocks ∧ ∀ L ∈ LI.loops, bb ∈ L.blocks → M.header ∈ L.blocks := by
  obtain ⟨hmem, pre, post, hsplit, hpre⟩ := List.find?_eq_some_iff_append.mp hM
  have hbb : bb ∈ M.blocks := by simpa [Loop.contains] using hmem
  refine ⟨by simp [hsplit], hbb, fun L hL hbbL => ?_⟩
  rw [hsplit] at hL
  rcases List.mem_append.mp hL with hL | hL
  · have := hpre L hL
    simp [Loop.contains, hbbL] at this
  · rcases List.mem_cons.mp hL with rfl | hL
    · exact header_mem L
    · exact h.header_mem_of_meet hsplit hL hbb hbbL

/-- **`getParentLoop`** returns the innermost loop around a loop. -/
theorem Describes.getParentLoop_spec (h : LI.Describes cfg entry)
    (hN : LI.getParentLoop M = some N) : N ∈ LI.loops ∧ N ≠ M ∧ M.header ∈ N.blocks ∧
      ∀ L ∈ LI.loops, L ≠ M → M.header ∈ L.blocks → N.header ∈ L.blocks := by
  obtain ⟨hmem, pre, post, hsplit, hpre⟩ := List.find?_eq_some_iff_append.mp hN
  obtain ⟨hne, hheader⟩ : N ≠ M ∧ M.header ∈ N.blocks := by
    simpa [Loop.contains] using hmem
  refine ⟨by simp [hsplit], hne, hheader, fun L hL hLM hheaderL => ?_⟩
  rw [hsplit] at hL
  rcases List.mem_append.mp hL with hL | hL
  · have := hpre L hL
    simp [Loop.contains, hheaderL, hLM] at this
  · rcases List.mem_cons.mp hL with rfl | hL
    · exact header_mem L
    · exact h.header_mem_of_meet hsplit hL hheader hheaderL

/-- The climb ends at a loop of the block that is `parent` or directly inside it. -/
private theorem climb_spec (h : LI.Describes cfg entry) (hL : L ∈ LI.loops) {pre post : List Loop}
    (hsplit : LI.loops = pre ++ M :: post) (hbb : bb ∈ M.blocks) (hM : M.header ∈ L.blocks)
    (fuel : ℕ) (hfuel : post.length < fuel) :
    ∃ C ∈ LI.loops, LI.climb L fuel (some M) = some C ∧ bb ∈ C.blocks ∧ (C = L ↔ M = L) ∧
      (C = L ∨ LI.getParentLoop C = some L) := by
  induction fuel generalizing pre post M with
  | zero => omega
  | succ fuel ih =>
    have hMl : M ∈ LI.loops := by simp [hsplit]
    rw [climb]
    by_cases hstop : M = L ∨ LI.getParentLoop M = some L
    · rw [if_pos hstop]
      exact ⟨M, hMl, rfl, hbb, Iff.rfl, hstop⟩
    · rw [if_neg hstop]
      obtain ⟨hML, hparent⟩ := not_or.mp hstop
      obtain ⟨N, hN⟩ : ∃ N, LI.getParentLoop M = some N := by
        rw [← Option.isSome_iff_exists, getParentLoop, List.find?_isSome]
        exact ⟨L, hL, by simp [Loop.contains, hM, Ne.symm hML]⟩
      obtain ⟨hNl, hNM, hheader, hinner⟩ := h.getParentLoop_spec hN
      have hNL : N ≠ L := fun heq => hparent (heq ▸ hN)
      -- the parent comes later in the list
      have hpost : N ∈ post := by
        have hmem := hNl
        rw [hsplit] at hmem
        rcases List.mem_append.mp hmem with hmem | hmem
        · have hpair := h.inner_first
          rw [hsplit, List.pairwise_append] at hpair
          exact absurd hheader (hpair.2.2 N hmem M List.mem_cons_self)
        · exact (List.mem_cons.mp hmem).resolve_left hNM
      obtain ⟨post₁, post₂, rfl⟩ := List.append_of_mem hpost
      obtain ⟨C, hC, hclimb, hbbC, hiff, hstop⟩ := ih
        (List.append_assoc pre (M :: post₁) (N :: post₂) ▸ hsplit) (h.subset hNl hMl hheader hbb)
        (hinner L hL (Ne.symm hML) hM) (by simp at hfuel; omega)
      exact ⟨C, hC, hN ▸ hclimb, hbbC, hiff.trans (iff_of_false hNL hML), hstop⟩

/-- **`getImmediateChildLoop`** of a block of the loop: none for a direct member, else the loop
directly inside that contains the block. -/
theorem Describes.getImmediateChildLoop_spec (h : LI.Describes cfg entry) (hL : L ∈ LI.loops)
    (hbb : bb ∈ L.blocks) :
    (LI.getImmediateChildLoop L bb = none ↔ LI.getLoopFor bb = some L) ∧
      ∀ C, LI.getImmediateChildLoop L bb = some C →
        C ∈ LI.loops ∧ C ≠ L ∧ bb ∈ C.blocks ∧ LI.getParentLoop C = some L := by
  obtain ⟨M, hM⟩ : ∃ M, LI.getLoopFor bb = some M := by
    rw [← Option.isSome_iff_exists, getLoopFor, List.find?_isSome]
    exact ⟨L, hL, by simpa [Loop.contains] using hbb⟩
  obtain ⟨hMl, hbbM, hinner⟩ := h.getLoopFor_spec hM
  obtain ⟨pre, post, hsplit⟩ := List.append_of_mem hMl
  obtain ⟨C, hC, hclimb, hbbC, hiff, hstop⟩ := climb_spec h hL hsplit hbbM (hinner L hL hbb)
    (LI.loops.length + 1) (by simp [hsplit]; omega)
  rw [getImmediateChildLoop, hM, hclimb]
  by_cases hCL : C = L
  · subst hCL
    simp only [if_true, hiff.mp rfl]
    exact ⟨trivial, fun C hC => by cases hC⟩
  · simp only [if_neg hCL, Option.some.injEq]
    refine ⟨iff_of_false (by simp) (fun heq => hCL (hiff.mpr heq)), ?_⟩
    rintro _ rfl
    exact ⟨hC, hCL, hbbC, hstop.resolve_left hCL⟩

/-! ### The reduced graph -/

private theorem mem_successors {a b : BasicBlock} : b ∈ cfg.successors a ↔ Edge cfg a b := by
  simp [CFGAnalysis.successors, Edge]

/-- A back edge to another header of a loop belongs to a loop inside. -/
private theorem Describes.loop_of_isBackEdge (h : LI.Describes cfg entry) (hL : L ∈ LI.loops)
    {x v : BasicBlock} (hback : IsBackEdge (Edge cfg) entry x v) (hv : v ∈ L.blocks)
    (hne : v ≠ L.header) :
    ∃ M ∈ LI.loops, M.header = v ∧ x ∈ M.blocks ∧ L.header ∉ M.blocks := by
  obtain ⟨M, hM, rfl⟩ := h.complete v ⟨x, hback⟩
  refine ⟨M, hM, rfl, (h.mem_iff M hM x).mpr (.of_isBackEdge hback), fun hcon => ?_⟩
  exact InLoop.header_notMem ((h.mem_iff L hL _).mp hv) hne (h.reachable_header hL)
    ((h.mem_iff M hM _).mp hcon)

/-- **A step of the reduced graph** stays in the loop. It takes edges that are not back edges,
unless it leaves an inner loop with the latch for the header. -/
theorem Describes.reducedStep_forward (h : LI.Describes cfg entry) (hL : L ∈ LI.loops)
    {latch u v : BasicBlock} (hlatch : L.latch = some latch) (hu : u ∈ L.blocks)
    (hv : v ∈ LI.getReducedSuccessors cfg L u) : v ∈ L.blocks ∧
      (TransGen (Forward (Edge cfg) entry) u v ∨ v = L.header ∧
        ∃ C, LI.getImmediateChildLoop L u = some C ∧ u = C.header ∧ latch ∈ C.blocks) := by
  obtain ⟨hnone, hsome⟩ := h.getImmediateChildLoop_spec hL hu
  have hreach := ((h.mem_iff L hL u).mp hu).1
  rw [getReducedSuccessors] at hv
  cases hchild : LI.getImmediateChildLoop L u with
  | none =>
    simp only [hchild, List.mem_filter, mem_successors] at hv
    obtain ⟨hedge, hv⟩ := hv
    obtain ⟨hvL, hback⟩ : v ∈ L.blocks ∧ (some u = L.latch → v ≠ L.header) := by
      simpa [Loop.contains, imp_iff_not_or] using hv
    refine ⟨hvL, .inl (.single ⟨hedge, fun hdom => ?_⟩)⟩
    have hback' : IsBackEdge (Edge cfg) entry u v := ⟨hedge, hdom, hreach⟩
    by_cases hheader : v = L.header
    · subst hheader
      exact hback (by rw [hlatch, (h.latch L hL latch hlatch).2 u hback']) rfl
    · obtain ⟨M, hM, -, huM, hnot⟩ := h.loop_of_isBackEdge hL hback' hvL hheader
      exact hnot ((h.getLoopFor_spec (hnone.mp hchild)).2.2 M hM huM)
  | some C =>
    obtain ⟨hC, hCL, huC, hparent⟩ := hsome C hchild
    simp only [hchild] at hv
    split_ifs at hv with hheader
    · simp at hv
    · rw [not_not] at hheader
      obtain ⟨x, hx, hedge, hvC, hvL⟩ : ∃ x ∈ C.blocks, Edge cfg x v ∧ v ∉ C.blocks ∧
          v ∈ L.blocks := by
        rw [List.mem_eraseDups, List.mem_filter, Loop.getExitBlocks, List.mem_flatMap] at hv
        obtain ⟨⟨x, hx, hv⟩, hvL⟩ := hv
        rw [List.mem_filter, mem_successors] at hv
        exact ⟨x, hx, hv.1, by simpa [Loop.contains] using hv.2,
          by simpa [Loop.contains] using hvL⟩
      have hxC := (h.mem_iff C hC x).mp hx
      refine ⟨hvL, ?_⟩
      by_cases hdom : Dominates (Edge cfg) entry v x
      · have hback : IsBackEdge (Edge cfg) entry x v := ⟨hedge, hdom, hxC.1⟩
        by_cases hvh : v = L.header
        · subst hvh
          refine .inr ⟨rfl, C, rfl, hheader, ?_⟩
          rwa [← (h.latch L hL latch hlatch).2 x hback]
        · -- the loop of the back edge lies between the inner loop and this one
          obtain ⟨M, hM, hMv, hxM, hnot⟩ := h.loop_of_isBackEdge hL hback hvL hvh
          refine absurd ((h.getParentLoop_spec hparent).2.2.2 M hM ?_ ?_) hnot
          · rintro rfl
            exact hvC (hMv ▸ header_mem M)
          · rcases InLoop.nested hxC ((h.mem_iff M hM x).mp hxM) with hin | hin
            · exact absurd ((h.mem_iff C hC _).mpr hin) (hMv ▸ hvC)
            · exact (h.mem_iff M hM _).mpr hin
      · rw [hheader]
        exact .inl (.tail' hxC.forward ⟨hedge, hdom⟩)

/-- No step of the reduced graph leads to a block of an inner loop but its header. -/
private theorem Describes.not_step_inside (h : LI.Describes cfg entry) (hL : L ∈ LI.loops)
    {C : Loop} (hC : C ∈ LI.loops) (hCL : C ≠ L) (hparent : LI.getParentLoop C = some L)
    {u v : BasicBlock} (hu : u ∈ L.blocks) (hv : v ∈ C.blocks) (hne : v ≠ C.header) :
    v ∉ LI.getReducedSuccessors cfg L u := by
  intro hstep
  obtain ⟨hnone, hsome⟩ := h.getImmediateChildLoop_spec hL hu
  -- no loop directly inside contains the header of the loop
  have hnot : ∀ D ∈ LI.loops, D ≠ L → LI.getParentLoop D = some L → L.header ∉ D.blocks := by
    intro D hD hDL hparent hcon
    refine InLoop.header_notMem ((h.mem_iff L hL _).mp (h.getParentLoop_spec hparent).2.2.1)
      (fun heq => hDL (h.header_injective hD hL heq)) (h.reachable_header hL)
      ((h.mem_iff D hD _).mp hcon)
  have henter : ∀ x, ReflTransGen (Edge cfg) entry x → Edge cfg x v → x ∈ C.blocks :=
    fun x hx hedge => (h.mem_iff C hC x).mpr (((h.mem_iff C hC v).mp hv).of_succ hx hedge hne)
  rw [getReducedSuccessors] at hstep
  cases hchild : LI.getImmediateChildLoop L u with
  | none =>
    simp only [hchild, List.mem_filter, mem_successors] at hstep
    have huC := henter u ((h.mem_iff L hL u).mp hu).1 hstep.1
    exact hnot C hC hCL hparent ((h.getLoopFor_spec (hnone.mp hchild)).2.2 C hC huC)
  | some D =>
    obtain ⟨hD, hDL, -, hparentD⟩ := hsome D hchild
    simp only [hchild] at hstep
    split_ifs at hstep with hheader
    · simp at hstep
    · rw [List.mem_eraseDups, List.mem_filter, Loop.getExitBlocks, List.mem_flatMap] at hstep
      obtain ⟨⟨x, hx, hexit⟩, -⟩ := hstep
      rw [List.mem_filter, mem_successors] at hexit
      have hvD : v ∉ D.blocks := by simpa [Loop.contains] using hexit.2
      have hxD := (h.mem_iff D hD x).mp hx
      have hxC := henter x hxD.1 hexit.1
      have hCD : C ≠ D := fun heq => hvD (heq ▸ hv)
      -- the two loops would be nested, with this one between them
      rcases InLoop.nested ((h.mem_iff C hC x).mp hxC) hxD with hin | hin
      · exact hnot C hC hCL hparent ((h.getParentLoop_spec hparentD).2.2.2 C hC hCD
          ((h.mem_iff C hC _).mpr hin))
      · exact hnot D hD hDL hparentD ((h.getParentLoop_spec hparent).2.2.2 D hD hCD.symm
          ((h.mem_iff D hD _).mpr hin))

/-- A path of the reduced graph from the header to the latch, without repeated blocks. -/
def IsReducedPath (LI : LoopInfo) (cfg : CFGAnalysis) (L : Loop) (latch : BasicBlock)
    (path : List BasicBlock) : Prop :=
  BreadthFirst.IsPath (LI.getReducedSuccessors cfg L) L.header latch path

section Glue

variable {latch m : BasicBlock} {front back : List BasicBlock}

/-- What the reduced graph reaches is in the loop. -/
theorem Describes.mem_of_reduced (h : LI.Describes cfg entry) (hL : L ∈ LI.loops)
    (hlatch : L.latch = some latch) {u v : BasicBlock} (hu : u ∈ L.blocks)
    (hpath : ReflTransGen (fun u v => v ∈ LI.getReducedSuccessors cfg L u) u v) : v ∈ L.blocks := by
  induction hpath with
  | refl => exact hu
  | tail _ hstep ih => exact (h.reducedStep_forward hL hlatch ih hstep).1

/-- A path from the header takes no back edges: it does not return to the header. -/
private theorem Describes.forward_front (h : LI.Describes cfg entry) (hL : L ∈ LI.loops)
    (hlatch : L.latch = some latch)
    (hfront : BreadthFirst.IsPath (LI.getReducedSuccessors cfg L) L.header m front) :
    front.IsChain (TransGen (Forward (Edge cfg) entry)) := by
  refine List.isChain_iff_forall_rel_of_append_cons_cons.mpr fun a b l₁ l₂ heq => ?_
  have hstep := List.isChain_iff_forall_rel_of_append_cons_cons.mp hfront.chain heq
  have ha : a ∈ L.blocks := h.mem_of_reduced hL hlatch (header_mem L)
    (BreadthFirst.reflTransGen_of_mem hfront.head hfront.last hfront.chain (by simp [heq])).1
  refine ((h.reducedStep_forward hL hlatch ha hstep).2).resolve_right ?_
  rintro ⟨rfl, -⟩
  have hnodup := hfront.nodup
  have hhead := hfront.head
  rw [heq] at hnodup hhead
  cases l₁ with
  | nil =>
    obtain rfl := Option.some.inj hhead
    simp at hnodup
  | cons c l₁ =>
    obtain rfl := Option.some.inj hhead
    simp at hnodup

private theorem exists_step_to_last {R : BasicBlock → BasicBlock → Prop} {a z : BasicBlock}
    {l : List BasicBlock} (hchain : (a :: l).IsChain R) (hlast : l.getLast? = some z) :
    ∃ y ∈ a :: l, R y z := by
  obtain ⟨l', rfl⟩ := List.getLast?_eq_some_iff.mp hlast
  rw [← List.cons_append] at hchain ⊢
  have hne := List.cons_ne_nil a l'
  exact ⟨(a :: l').getLast hne, List.mem_append_left _ (List.getLast_mem hne),
    (List.isChain_append.mp hchain).2.2 _ (List.getLast_mem_getLast? hne) z rfl⟩

/-- A path to the latch takes no back edges: past an inner loop with the latch, it does not get to
the latch. -/
private theorem Describes.forward_back (h : LI.Describes cfg entry) (hL : L ∈ LI.loops)
    (hlatch : L.latch = some latch) (hm : m ∈ L.blocks)
    (hback : BreadthFirst.IsPath (LI.getReducedSuccessors cfg L) m latch back) :
    back.IsChain (TransGen (Forward (Edge cfg) entry)) := by
  have hmem : ∀ v ∈ back, v ∈ L.blocks := fun v hv => h.mem_of_reduced hL hlatch hm
    (BreadthFirst.reflTransGen_of_mem hback.head hback.last hback.chain hv).1
  refine List.isChain_iff_forall_rel_of_append_cons_cons.mpr fun a b l₁ l₂ heq => ?_
  have hstep := List.isChain_iff_forall_rel_of_append_cons_cons.mp hback.chain heq
  have ha : a ∈ L.blocks := hmem a (by simp [heq])
  refine ((h.reducedStep_forward hL hlatch ha hstep).2).resolve_right ?_
  rintro ⟨-, C, hchild, rfl, hlatchC⟩
  obtain ⟨hC, hCL, -, hparent⟩ := (h.getImmediateChildLoop_spec hL ha).2 C hchild
  have hnodup := hback.nodup
  have hlast := hback.last
  have hchain := hback.chain
  rw [heq] at hnodup hlast hchain
  rw [List.getLast?_append_of_ne_nil _ (List.cons_ne_nil _ _), List.getLast?_cons_cons] at hlast
  have hne : latch ≠ C.header := by
    rintro rfl
    have hlater := List.mem_of_getLast? hlast
    exact (List.nodup_cons.mp (List.nodup_append.mp hnodup).2.1).1 hlater
  obtain ⟨y, hy, hlaststep⟩ := exists_step_to_last (List.isChain_append.mp hchain).2.1 hlast
  have hy : y ∈ back := heq ▸ List.mem_append_right _ hy
  exact h.not_step_inside hL hC hCL hparent (hmem y hy) hlatchC hne hlaststep

/-- **Gluing** a path from the header and a path to the latch repeats no block. -/
theorem Describes.isReducedPath_glued (h : LI.Describes cfg entry)
    (hred : IsReducible (Edge cfg) entry) (hL : L ∈ LI.loops) (hlatch : L.latch = some latch)
    (hm : m ∈ L.blocks)
    (hfront : BreadthFirst.IsPath (LI.getReducedSuccessors cfg L) L.header m front)
    (hback : BreadthFirst.IsPath (LI.getReducedSuccessors cfg L) m latch back) :
    IsReducedPath LI cfg L latch (front ++ back.tail) := by
  have hforward := h.forward_front hL hlatch hfront
  have hbackward := h.forward_back hL hlatch hm hback
  obtain ⟨tail, rfl⟩ := List.head?_eq_some_iff.mp hback.head
  obtain ⟨hmtail, htail⟩ := List.nodup_cons.mp hback.nodup
  rw [List.tail_cons]
  refine ⟨?_, ?_, ?_, List.nodup_append.mpr ⟨hfront.nodup, htail, ?_⟩⟩
  · rw [List.head?_append, hfront.head, Option.some_or]
  · have hlast := hback.last
    cases tail with
    | nil =>
      obtain rfl := Option.some.inj hlast
      rw [List.append_nil]
      exact hfront.last
    | cons b tail =>
      rwa [List.getLast?_append_of_ne_nil _ (List.cons_ne_nil _ _),
        ← List.getLast?_cons_cons (a := m)]
  · refine List.isChain_append.mpr ⟨hfront.chain, hback.chain.tail, fun x hx y hy => ?_⟩
    obtain rfl := Option.some.inj (hfront.last.symm.trans hx)
    obtain ⟨rest, rfl⟩ := List.head?_eq_some_iff.mp hy
    exact (List.isChain_cons_cons.mp hback.chain).1
  · -- a block on both halves would be on a cycle without back edges
    rintro w hw _ hw' rfl
    have hto := (BreadthFirst.reflTransGen_of_mem hfront.head hfront.last hforward hw).2
    have hfrom := (BreadthFirst.reflTransGen_of_mem hback.head hback.last hbackward
      (List.mem_cons_of_mem m hw')).1
    have hwm : w ≠ m := fun heq => hmtail (heq ▸ hw')
    have hcycle : TransGen (TransGen (Forward (Edge cfg) entry)) m m :=
      ((reflTransGen_iff_eq_or_transGen.mp hfrom).resolve_left hwm).trans_left hto
    rw [transGen_eq_self] at hcycle
    exact hred m ((h.mem_iff L hL m).mp hm).1 hcycle

end Glue

/-! ### The synthesis -/

section Synthesis

variable {name : BasicBlock → String} {latch : BasicBlock} {paths : List EnumeratedPath}

/-- The search finds a path in the reduced graph, or there is none. -/
theorem Describes.findReducedPath_spec (h : LI.Describes cfg entry) (hL : L ∈ LI.loops)
    (hlatch : L.latch = some latch) {src : BasicBlock} (dst : BasicBlock) (hsrc : src ∈ L.blocks) :
    (∃ path, LI.findReducedPath cfg L src dst = some path ∧
        BreadthFirst.IsPath (LI.getReducedSuccessors cfg L) src dst path) ∨
      LI.findReducedPath cfg L src dst = none ∧
        ¬ReflTransGen (fun u v => v ∈ LI.getReducedSuccessors cfg L u) src dst :=
  BreadthFirst.findPath_spec hsrc fun _ hv _ hw => (h.reducedStep_forward hL hlatch hv hw).1

/-- The paths grow by paths of the reduced graph. -/
def Adds (LI : LoopInfo) (cfg : CFGAnalysis) (L : Loop) (latch : BasicBlock)
    (paths paths' : List EnumeratedPath) : Prop :=
  ∃ new : List (List BasicBlock), (∀ path ∈ new, IsReducedPath LI cfg L latch path) ∧
    paths' = paths ++ new.map makeEnumeratedPath

theorem Adds.refl : Adds LI cfg L latch paths paths := ⟨[], by simp, by simp⟩

theorem Adds.trans {paths' paths'' : List EnumeratedPath} (h : Adds LI cfg L latch paths paths')
    (h' : Adds LI cfg L latch paths' paths'') : Adds LI cfg L latch paths paths'' := by
  obtain ⟨new, hnew, rfl⟩ := h
  obtain ⟨new', hnew', rfl⟩ := h'
  exact ⟨new ++ new', List.forall_mem_append.mpr ⟨hnew, hnew'⟩, by simp⟩

theorem Adds.single {path : List BasicBlock} (h : IsReducedPath LI cfg L latch path) :
    Adds LI cfg L latch paths (paths ++ [makeEnumeratedPath path]) :=
  ⟨[path], by simpa using h, rfl⟩

theorem mem_makeEnumeratedPath {path : List BasicBlock} :
    .real bb ∈ (makeEnumeratedPath path).blocks ↔ bb ∈ path := by
  simp [makeEnumeratedPath]

theorem Adds.isCovered_mono {paths' : List EnumeratedPath} (h : Adds LI cfg L latch paths paths')
    (hbb : isCovered paths (.real bb) = true) : isCovered paths' (.real bb) = true := by
  obtain ⟨new, -, rfl⟩ := h
  rw [LoopInfo.isCovered, List.any_append, Bool.or_eq_true]
  exact .inl hbb

/-- What the new paths cover lies on a path of the reduced graph. -/
theorem Adds.of_isCovered {paths' : List EnumeratedPath} (h : Adds LI cfg L latch paths paths')
    (hbb : isCovered paths' (.real bb) = true) :
    isCovered paths (.real bb) = true ∨ ∃ path, IsReducedPath LI cfg L latch path ∧ bb ∈ path := by
  obtain ⟨new, hnew, rfl⟩ := h
  rw [LoopInfo.isCovered, List.any_append, Bool.or_eq_true] at hbb
  refine hbb.imp_right fun hbb => ?_
  obtain ⟨_, hpath, hmem⟩ := List.any_eq_true.mp hbb
  obtain ⟨path, hnewPath, rfl⟩ := List.mem_map.mp hpath
  exact ⟨path, hnew path hnewPath, mem_makeEnumeratedPath.mp (of_decide_eq_true hmem)⟩

/-- **A direct member without a path** gets one, if it lies on one. -/
private theorem Describes.synthesizeMember_spec (h : LI.Describes cfg entry)
    (name : BasicBlock → String) (paths : List EnumeratedPath)
    (hred : IsReducible (Edge cfg) entry) (hL : L ∈ LI.loops) (hlatch : L.latch = some latch)
    (hbb : bb ∈ L.blocks) :
    (∀ paths', LI.synthesizeMember cfg name L latch paths (.real bb) = .ok paths' →
      Adds LI cfg L latch paths paths' ∧
        (LI.getLoopFor bb = some L → isCovered paths' (.real bb) = true)) ∧
    ((∃ paths', LI.synthesizeMember cfg name L latch paths (.real bb) = .ok paths') ↔
      (LI.getLoopFor bb = some L → isCovered paths (.real bb) = false →
        ∃ path, IsReducedPath LI cfg L latch path ∧ bb ∈ path)) := by
  simp only [synthesizeMember, Block.getLLVMBlock]
  by_cases hskip : LI.getLoopFor bb ≠ some L ∨ isCovered paths (.real bb) = true
  · simp only [if_pos hskip, Except.ok.injEq]
    refine ⟨?_, iff_of_true ⟨_, rfl⟩ fun hdirect huncovered => ?_⟩
    · rintro _ rfl
      exact ⟨.refl, fun hdirect => hskip.resolve_left (not_not.mpr hdirect)⟩
    · rw [hskip.resolve_left (not_not.mpr hdirect)] at huncovered
      cases huncovered
  · obtain ⟨hdirect, huncovered⟩ := not_or.mp hskip
    rw [not_not] at hdirect
    rw [Bool.not_eq_true] at huncovered
    simp only [if_neg hskip]
    simp only [hdirect, huncovered, forall_const]
    rcases h.findReducedPath_spec hL hlatch bb (header_mem L) with
      ⟨front, hfind, hfront⟩ | ⟨hfind, hnone⟩
    · rcases h.findReducedPath_spec hL hlatch latch hbb with
        ⟨back, hfind', hback⟩ | ⟨hfind', hnone⟩
      · have hglued := h.isReducedPath_glued hred hL hlatch hbb hfront hback
        have hmem : bb ∈ front ++ back.tail :=
          List.mem_append_left _ (List.mem_of_getLast? hfront.last)
        simp only [hfind, hfind']
        -- no path is there already, since none covers the member
        have habsent : (paths.any fun path =>
            path.blocks = (makeEnumeratedPath (front ++ back.tail)).blocks) = false := by
          rw [List.any_eq_false]
          intro path hpath heq
          refine List.any_eq_false.mp huncovered path hpath ?_
          rw [of_decide_eq_true heq]
          exact decide_eq_true (mem_makeEnumeratedPath.mpr hmem)
        rw [habsent]
        simp only [Bool.false_eq_true, if_false, Except.ok.injEq]
        refine ⟨?_, iff_of_true ⟨_, rfl⟩ ⟨_, hglued, hmem⟩⟩
        rintro _ rfl
        refine ⟨.single hglued, List.any_eq_true.mpr ⟨_, List.mem_append_right _
          List.mem_cons_self, decide_eq_true (mem_makeEnumeratedPath.mpr hmem)⟩⟩
      · simp only [hfind, hfind']
        refine ⟨by simp, iff_of_false (by simp) ?_⟩
        rintro ⟨path, hpath, hmem⟩
        exact hnone (BreadthFirst.reflTransGen_of_mem hpath.head hpath.last hpath.chain hmem).2
    · simp only [hfind]
      refine ⟨by simp, iff_of_false (by simp) ?_⟩
      rintro ⟨path, hpath, hmem⟩
      exact hnone (BreadthFirst.reflTransGen_of_mem hpath.head hpath.last hpath.chain hmem).1

/-- **All members**, one after the other. -/
private theorem Describes.foldlM_spec (h : LI.Describes cfg entry)
    (name : BasicBlock → String) (paths : List EnumeratedPath)
    (hred : IsReducible (Edge cfg) entry) (hL : L ∈ LI.loops) (hlatch : L.latch = some latch)
    {members : List BasicBlock} (hmembers : ∀ bb ∈ members, bb ∈ L.blocks) :
    (∀ paths', (members.map Block.real).foldlM (LI.synthesizeMember cfg name L latch) paths =
        .ok paths' → Adds LI cfg L latch paths paths' ∧
      ∀ bb ∈ members, LI.getLoopFor bb = some L → isCovered paths' (.real bb) = true) ∧
    ((∃ paths', (members.map Block.real).foldlM (LI.synthesizeMember cfg name L latch) paths =
        .ok paths') ↔
      ∀ bb ∈ members, LI.getLoopFor bb = some L → isCovered paths (.real bb) = false →
        ∃ path, IsReducedPath LI cfg L latch path ∧ bb ∈ path) := by
  induction members generalizing paths with
  | nil =>
    refine ⟨fun paths' hok => ?_, iff_of_true ⟨paths, rfl⟩ (by simp)⟩
    cases hok
    exact ⟨.refl, by simp⟩
  | cons bb members ih =>
    obtain ⟨hbb, hmembers⟩ := List.forall_mem_cons.mp hmembers
    obtain ⟨hok, hiff⟩ := h.synthesizeMember_spec name paths hred hL hlatch hbb
    rw [List.map_cons, List.foldlM_cons]
    cases hmember : LI.synthesizeMember cfg name L latch paths (.real bb) with
    | error e =>
      rw [hmember] at hiff
      have hfails : ∀ paths', (Except.error e >>= fun paths₁ => (members.map Block.real).foldlM
          (LI.synthesizeMember cfg name L latch) paths₁) ≠ .ok paths' := fun _ h => by cases h
      refine ⟨fun paths' hpaths' => absurd hpaths' (hfails paths'),
        iff_of_false (fun h => hfails _ h.choose_spec) fun hall => ?_⟩
      obtain ⟨_, hcon⟩ := hiff.mpr (List.forall_mem_cons.mp hall).1
      cases hcon
    | ok paths₁ =>
      obtain ⟨hadds, hcovered⟩ := hok paths₁ hmember
      obtain ⟨hok₁, hiff₁⟩ := ih paths₁ hmembers
      refine ⟨fun paths' hpaths' => ?_, ?_⟩
      · obtain ⟨hadds₁, hcovered₁⟩ := hok₁ paths' hpaths'
        exact ⟨hadds.trans hadds₁, List.forall_mem_cons.mpr
          ⟨fun hdirect => hadds₁.isCovered_mono (hcovered hdirect), hcovered₁⟩⟩
      · refine hiff₁.trans ⟨fun hall => List.forall_mem_cons.mpr ⟨hiff.mp ⟨_, hmember⟩,
          fun bb' hbb' hdirect huncovered => ?_⟩, fun hall bb' hbb' hdirect huncovered => ?_⟩
        · by_cases hcov : isCovered paths₁ (.real bb') = true
          · refine (hadds.of_isCovered hcov).resolve_left ?_
            rw [huncovered]
            exact Bool.false_ne_true
          · exact hall bb' hbb' hdirect (Bool.not_eq_true _ ▸ hcov)
        · refine (List.forall_mem_cons.mp hall).2 bb' hbb' hdirect ?_
          by_contra hcov
          rw [hadds.isCovered_mono (Bool.not_eq_false _ ▸ hcov)] at huncovered
          cases huncovered

private theorem Describes.canonicalPaths_spec (h : LI.Describes cfg entry)
    (name : BasicBlock → String) (paths : List EnumeratedPath) (hL : L ∈ LI.loops)
    (hlatch : L.latch = some latch) :
    (∀ paths', LI.canonicalPaths cfg name L latch paths = .ok paths' →
      Adds LI cfg L latch paths paths' ∧ paths' ≠ []) ∧
    ((∃ paths', LI.canonicalPaths cfg name L latch paths = .ok paths') ↔
      paths ≠ [] ∨ ∃ path, IsReducedPath LI cfg L latch path) := by
  rw [canonicalPaths]
  cases paths with
  | cons path paths =>
    simp only [List.isEmpty_cons, Bool.false_eq_true, if_false, Except.ok.injEq]
    refine ⟨?_, iff_of_true ⟨_, rfl⟩ (.inl (List.cons_ne_nil _ _))⟩
    rintro _ rfl
    exact ⟨.refl, List.cons_ne_nil _ _⟩
  | nil =>
    simp only [List.isEmpty_nil, if_true, List.nil_append]
    rcases h.findReducedPath_spec hL hlatch latch (header_mem L) with
      ⟨path, hfind, hpath⟩ | ⟨hfind, hnone⟩
    · simp only [hfind, Except.ok.injEq]
      refine ⟨?_, iff_of_true ⟨_, rfl⟩ (.inr ⟨path, hpath⟩)⟩
      rintro _ rfl
      exact ⟨.single hpath, List.cons_ne_nil _ _⟩
    · simp only [hfind]
      refine ⟨by simp, iff_of_false (by simp) ?_⟩
      rintro (hnil | ⟨path, hpath⟩)
      · exact hnil rfl
      · exact hnone (BreadthFirst.reflTransGen_of_mem hpath.head hpath.last hpath.chain
          (List.mem_of_getLast? hpath.last)).1

private theorem coversAllDirectMembers_iff {trace : LoadedLoopTrace}
    (hmembers : trace.members = trace.loop.blocks.map .real) :
    LI.coversAllDirectMembers { trace with iterationPaths := paths } = true ↔
      ∀ bb ∈ trace.loop.blocks, LI.getLoopFor bb = some trace.loop →
        isCovered paths (.real bb) = true := by
  simp only [coversAllDirectMembers, hmembers, List.all_map, List.all_eq_true, Function.comp_apply,
    Block.getLLVMBlock, Bool.or_eq_true, decide_eq_true_eq, ne_eq, imp_iff_not_or]

private theorem stringExcept_bind_eq_ok {α β : Type} {x : Except String α}
    {f : α → Except String β} {b : β} (h : x >>= f = .ok b) : ∃ a, x = .ok a ∧ f a = .ok b := by
  cases x with
  | error e => cases h
  | ok a => exact ⟨a, rfl, h⟩

/-- The three stages of the synthesis. -/
private theorem synthesizeLoopPaths_eq_ok {trace trace' : LoadedLoopTrace}
    (hlatch : trace.loop.latch = some latch) :
    LI.synthesizeLoopPaths cfg name trace = .ok trace' ↔
      ∃ paths₁ paths₂, trace.members.foldlM (LI.synthesizeMember cfg name trace.loop latch)
          trace.iterationPaths = .ok paths₁ ∧
        LI.canonicalPaths cfg name trace.loop latch paths₁ = .ok paths₂ ∧
        LI.coversAllDirectMembers { trace with iterationPaths := paths₂ } = true ∧
        trace' = { trace with
          iterationPaths := paths₂.mergeSort fun a b => b.count ≤ a.count } := by
  simp only [synthesizeLoopPaths, hlatch]
  constructor
  · intro h
    obtain ⟨paths₁, hfold, h⟩ := stringExcept_bind_eq_ok h
    obtain ⟨paths₂, hcanonical, h⟩ := stringExcept_bind_eq_ok h
    cases hcovers : LI.coversAllDirectMembers { trace with iterationPaths := paths₂ } with
    | false =>
      rw [hcovers] at h
      cases h
    | true =>
      rw [hcovers] at h
      cases h
      exact ⟨paths₁, paths₂, hfold, hcanonical, hcovers, rfl⟩
  · rintro ⟨paths₁, paths₂, hfold, hcanonical, hcovers, rfl⟩
    rw [hfold]
    simp only [bind, Except.bind, hcanonical, hcovers]
    rfl

/-- What a successful synthesis returns: the paths it was given and new ones of the reduced graph,
by decreasing counts. -/
theorem Describes.synthesizeLoopPaths_spec (h : LI.Describes cfg entry)
    (hred : IsReducible (Edge cfg) entry) {trace trace' : LoadedLoopTrace}
    (hL : trace.loop ∈ LI.loops) (hlatch : trace.loop.latch = some latch)
    (hmembers : trace.members = trace.loop.blocks.map .real)
    (hok : LI.synthesizeLoopPaths cfg name trace = .ok trace') :
    ∃ paths, Adds LI cfg trace.loop latch trace.iterationPaths paths ∧
      (∀ bb ∈ trace.loop.blocks, LI.getLoopFor bb = some trace.loop →
        isCovered paths (.real bb) = true) ∧
      trace' = { trace with iterationPaths := paths.mergeSort fun a b => b.count ≤ a.count } := by
  obtain ⟨paths₁, paths₂, hfold, hcanonical, hcovers, rfl⟩ :=
    (synthesizeLoopPaths_eq_ok hlatch).mp hok
  rw [hmembers] at hfold
  have hadds₁ := ((h.foldlM_spec name _ hred hL hlatch fun _ hbb => hbb).1 paths₁ hfold).1
  have hadds₂ := ((h.canonicalPaths_spec name paths₁ hL hlatch).1 paths₂ hcanonical).1
  exact ⟨paths₂, hadds₁.trans hadds₂, (coversAllDirectMembers_iff hmembers).mp hcovers, rfl⟩

/-- **The synthesized paths are complete and valid.** -/
structure SynthesisIsComplete (LI : LoopInfo) (cfg : CFGAnalysis) (name : BasicBlock → String)
    (latch : BasicBlock) (trace : LoadedLoopTrace) : Prop where
  succeeds_iff : (∃ trace', LI.synthesizeLoopPaths cfg name trace = .ok trace') ↔
    (∀ bb ∈ trace.loop.blocks, LI.getLoopFor bb = some trace.loop →
      isCovered trace.iterationPaths (.real bb) = false →
        ∃ path, IsReducedPath LI cfg trace.loop latch path ∧ bb ∈ path) ∧
    (trace.iterationPaths ≠ [] ∨ ∃ path, IsReducedPath LI cfg trace.loop latch path)
  paths_ne_nil : ∀ trace', LI.synthesizeLoopPaths cfg name trace = .ok trace' →
    trace'.iterationPaths ≠ []
  keeps : ∀ trace', LI.synthesizeLoopPaths cfg name trace = .ok trace' →
    ∀ path ∈ trace.iterationPaths, path ∈ trace'.iterationPaths
  adds : ∀ trace', LI.synthesizeLoopPaths cfg name trace = .ok trace' →
    ∀ path ∈ trace'.iterationPaths, path ∈ trace.iterationPaths ∨
      ∃ blocks, IsReducedPath LI cfg trace.loop latch blocks ∧ path = makeEnumeratedPath blocks
  covers : ∀ trace', LI.synthesizeLoopPaths cfg name trace = .ok trace' →
    ∀ bb ∈ trace.loop.blocks, LI.getLoopFor bb = some trace.loop →
      ∃ path ∈ trace'.iterationPaths, .real bb ∈ path.blocks

end Synthesis

end Nesting

/-- The header branches to two blocks that meet at the latch. -/
def twoBranches : CFGAnalysis :=
  ⟨[0, 1, 2, 3, 4, 5], [(0, 1), (1, 2), (1, 3), (2, 4), (3, 4), (4, 1), (4, 5)], fun _ => 10⟩

/-- Its loop. -/
def twoBranchesLoop : Loop := ⟨1, [1, 2, 3, 4], some 4, some 0, rfl⟩

/-- One branch was seen. -/
def twoBranchesTrace : LoadedLoopTrace where
  loop := twoBranchesLoop
  depth := 1
  members := twoBranchesLoop.blocks.map .real
  iterationPaths := [⟨[.real 1, .real 2, .real 4], 3⟩]
  maxTripCount := none

private theorem twoBranches_edges {a b : BasicBlock} (h : Edge twoBranches a b) :
    a = 0 ∧ b = 1 ∨ a = 1 ∧ b = 2 ∨ a = 1 ∧ b = 3 ∨ a = 2 ∧ b = 4 ∨ a = 3 ∧ b = 4 ∨
      a = 4 ∧ b = 1 ∨ a = 4 ∧ b = 5 := by
  simpa [Edge, twoBranches] using h

private theorem twoBranches_avoid {d : BasicBlock} (h1 : 1 ≠ d) :
    ReflTransGen (AvoidStep (Edge twoBranches) d) 0 1 :=
  .single ⟨by decide, h1⟩

private theorem twoBranches_dominates {x : BasicBlock} (hx : x ≠ 0) :
    Dominates (Edge twoBranches) 0 1 x := by
  refine fun _ hpath => not_reaches_of_closed (S := {0}) (fun a ha b hstep => ?_) rfl hx hpath
  have ha : a = 0 := ha
  rcases twoBranches_edges hstep.1 with h | h | h | h | h | h | h
  · exact absurd h.2 hstep.2
  all_goals exact absurd (ha.symm.trans h.1) (by decide)

private theorem twoBranches_isBackEdge {a b : BasicBlock} :
    IsBackEdge (Edge twoBranches) 0 a b ↔ a = 4 ∧ b = 1 := by
  constructor
  · rintro ⟨hedge, hdom, -⟩
    have h1 : ∀ d, 1 ≠ d → ReflTransGen (AvoidStep (Edge twoBranches) d) 0 1 :=
      fun _ => twoBranches_avoid
    rcases twoBranches_edges hedge with ⟨rfl, rfl⟩ | ⟨rfl, rfl⟩ | ⟨rfl, rfl⟩ | ⟨rfl, rfl⟩ |
      ⟨rfl, rfl⟩ | h | ⟨rfl, rfl⟩
    · exact absurd .refl (hdom (by decide))
    · exact absurd (h1 2 (by decide)) (hdom (by decide))
    · exact absurd (h1 3 (by decide)) (hdom (by decide))
    · exact absurd ((h1 4 (by decide)).tail ⟨by decide, by decide⟩) (hdom (by decide))
    · exact absurd ((h1 4 (by decide)).tail ⟨by decide, by decide⟩) (hdom (by decide))
    · exact h
    · exact absurd (((h1 5 (by decide)).tail (c := 2) ⟨by decide, by decide⟩).tail
        ⟨by decide, by decide⟩) (hdom (by decide))
  · rintro ⟨rfl, rfl⟩
    exact ⟨by decide, twoBranches_dominates (by decide), ((ReflTransGen.single (b := 1)
      (by decide)).tail (c := 2) (by decide)).tail (by decide)⟩

theorem twoBranches_isReducible : IsReducible (Edge twoBranches) 0 := by
  have hstep : ∀ a b, Forward (Edge twoBranches) 0 a b → a < b := by
    rintro a b ⟨hedge, hdom⟩
    rcases twoBranches_edges hedge with ⟨rfl, rfl⟩ | ⟨rfl, rfl⟩ | ⟨rfl, rfl⟩ | ⟨rfl, rfl⟩ |
      ⟨rfl, rfl⟩ | ⟨rfl, rfl⟩ | ⟨rfl, rfl⟩
    · decide
    · decide
    · decide
    · decide
    · decide
    · exact absurd (twoBranches_dominates (by decide)) hdom
    · decide
  have hlt : ∀ a b, TransGen (Forward (Edge twoBranches) 0) a b → a < b := by
    intro a b hpath
    induction hpath with
    | single h =>
      exact hstep _ _ h
    | tail _ h ih =>
      exact ih.trans (hstep _ _ h)
  exact fun x _ hcycle => lt_irrefl x (hlt x x hcycle)

private theorem twoBranches_inLoop {bb : BasicBlock} :
    bb ∈ twoBranchesLoop.blocks ↔ InLoop (Edge twoBranches) 0 1 bb := by
  have hback := twoBranches_isBackEdge.mpr ⟨rfl, rfl⟩
  have h1 : ReflTransGen (Edge twoBranches) 0 1 := .single (by decide)
  have hlatch := InLoop.of_isBackEdge hback
  constructor
  · intro hbb
    have hcases : bb = 1 ∨ bb = 2 ∨ bb = 3 ∨ bb = 4 := by simpa [twoBranchesLoop] using hbb
    rcases hcases with rfl | rfl | rfl | rfl
    · exact .header h1
    · exact hlatch.of_succ (h1.tail (by decide)) (by decide) (by decide)
    · exact hlatch.of_succ (h1.tail (by decide)) (by decide) (by decide)
    · exact hlatch
  · rintro ⟨hreach, rfl | ⟨hne, l, hback, hpath⟩⟩
    · decide
    · obtain ⟨rfl, -⟩ := twoBranches_isBackEdge.mp hback
      rcases hpath.cases_head with rfl | ⟨c, ⟨hedge, hc⟩, -⟩
      · decide
      · rcases twoBranches_edges hedge with h | ⟨rfl, -⟩ | ⟨rfl, -⟩ | ⟨rfl, -⟩ | ⟨rfl, -⟩ |
          ⟨rfl, -⟩ | ⟨rfl, -⟩
        · exact absurd h.2 hc
        all_goals decide

theorem twoBranches_describes : LoopInfo.Describes ⟨[twoBranchesLoop]⟩ twoBranches 0 where
  mem_iff L hL bb := by
    obtain rfl := List.mem_singleton.mp hL
    exact twoBranches_inLoop
  isHeader L hL := by
    obtain rfl := List.mem_singleton.mp hL
    exact ⟨4, twoBranches_isBackEdge.mpr ⟨rfl, rfl⟩⟩
  complete h hh := by
    obtain ⟨l, hback⟩ := hh
    exact ⟨twoBranchesLoop, List.mem_singleton_self _, (twoBranches_isBackEdge.mp hback).2.symm⟩
  inner_first := List.pairwise_singleton _ _
  latch L hL l hl := by
    obtain rfl := List.mem_singleton.mp hL
    obtain rfl := Option.some.inj hl
    exact ⟨twoBranches_isBackEdge.mpr ⟨rfl, rfl⟩, fun l' hback =>
      (twoBranches_isBackEdge.mp hback).1⟩

end LoopInfo

end Bao.Schematic
