import Bao.Schematic.LoopPaths
import Bao.Trace.JsonFile

/-!
# Loading traces

`TraceLoader` reads the trace file for one function: its paths, and for each of its loops the paths
of an iteration. Entries that do not fit the function are skipped, and `augmentLoopTraces` completes
what was read to one trace for each loop.

* **Any file.** Whatever the file says, the loops come innermost first, and the paths of a loop go
  from its header to its latch and meet every direct member (`load_wellFormed`).
* **The file of the runtime.** What the latest call of the function recorded is loaded again
  (`load_traceText`).
-/

namespace Bao.Schematic

open Bao.Graph Bao.Trace Bao.Text Relation

/-- The traces of a function. -/
structure LoadedTraces where
  functionPaths : List EnumeratedPath
  loopTraces : List LoadedLoopTrace

/-- `getLoopsInPreorder`: the outer loops first. -/
def LoopInfo.getLoopsInPreorder (LI : LoopInfo) : List Loop := LI.loops.reverse

/-- `getLoopDepth`: the number of loops around a loop, itself included. -/
def LoopInfo.getLoopDepth (LI : LoopInfo) (L : Loop) : ℕ :=
  (LI.loops.filter fun M => M.contains L.header).length

/-- The function that is analyzed: its name, the names of its basic blocks, its graph and its loops
with the trip counts that are known. -/
structure TraceLoader where
  funcName : String
  blockNames : List (Option String)
  cfg : CFGAnalysis
  LI : LoopInfo
  tripCount : Loop → Option ℕ

namespace TraceLoader

variable (F : TraceLoader)

/-! ### Parsing -/

/-- `nameToBlock_`. -/
def nameToBlock (name : String) : Option BasicBlock := F.blockNames.idxOf? (some name)

/-- The name of a basic block in messages. -/
def blockName (bb : BasicBlock) : String := ((F.blockNames.getD bb none).getD "")

/-- An element of a path. -/
def parseBlock : Json.Value → Option BasicBlock
  | .string name => F.nameToBlock name
  | _ => none

/-- **`parseTraceEntry`**: one entry in either of the two formats. -/
def parseTraceEntry (traceObj : Json.Value) : Option EnumeratedPath :=
  let pathKey := if (traceObj.get? "path").isSome then "path" else "trace"
  let countKey := if (traceObj.get? "count").isSome then "count" else "nb_execution"
  match traceObj.get? pathKey, traceObj.get? countKey with
  | some (.array names), some (.unsigned count) =>
    (names.mapM F.parseBlock).map fun blocks => ⟨blocks.map .real, count % 2 ^ 32⟩
  | _, _ => none

/-- The entries under `traces`, by decreasing counts. -/
def parseTraces (obj : Json.Value) : List EnumeratedPath :=
  match obj.get? "traces" with
  | some (.array entries) =>
    (entries.filterMap F.parseTraceEntry).mergeSort fun a b => b.count ≤ a.count
  | _ => []

/-- One entry under `loop_traces`. -/
def parseLoop (member : String × Json.Value) : Option (Loop × List EnumeratedPath) := do
  let header ← F.nameToBlock member.1
  let L ← F.LI.getLoopsInPreorder.find? fun L => L.header = header
  some (L, F.parseTraces member.2)

/-- The entries under `loop_traces`. -/
def parseLoops (funcObj : Json.Value) : List (Loop × List EnumeratedPath) :=
  match funcObj.get? "loop_traces" with
  | some (.object members) => (Json.Value.object members).items.filterMap F.parseLoop
  | _ => []

/-! ### Augmentation -/

/-- `makeCanonicalLoopTrace`. -/
def makeCanonicalLoopTrace (L : Loop) : LoadedLoopTrace where
  loop := L
  depth := F.LI.getLoopDepth L
  members := L.blocks.map .real
  iterationPaths := []
  maxTripCount := F.tripCount L

/-- `isStructurallyValidLoopPath`: from the header to the latch, over members of the loop. -/
def isStructurallyValidLoopPath (L : Loop) (path : EnumeratedPath) : Bool :=
  decide (path.blocks.head? = some (.real L.header)) &&
    (match L.latch with
      | some latch => decide (path.blocks.getLast? = some (.real latch))
      | none => false) &&
    path.blocks.all fun b => (b.getLLVMBlock).any L.contains

/-- Adds a path that is valid and new. -/
def addPath (L : Loop) (acc : List EnumeratedPath) (path : EnumeratedPath) : List EnumeratedPath :=
  if isStructurallyValidLoopPath L path &&
      !(acc.any fun existing => existing.blocks = path.blocks) then acc ++ [path]
  else acc

def addPaths (trace : LoadedLoopTrace) (paths : List EnumeratedPath) : LoadedLoopTrace :=
  { trace with iterationPaths := paths.foldl (addPath trace.loop) trace.iterationPaths }

/-- What was parsed for a loop goes to its trace. -/
def mergeParsed (augmented : List LoadedLoopTrace) (parsed : Loop × List EnumeratedPath) :
    List LoadedLoopTrace :=
  augmented.map fun trace => if trace.loop = parsed.1 then addPaths trace parsed.2 else trace

/-- **`augmentLoopTraces`**: one trace for each loop, inner loops first. -/
def augmentLoopTraces (parsedLoopTraces : List (Loop × List EnumeratedPath)) :
    Except String (List LoadedLoopTrace) :=
  let canonical := F.LI.getLoopsInPreorder.map F.makeCanonicalLoopTrace
  let augmented := parsedLoopTraces.foldl mergeParsed canonical
  (augmented.mergeSort fun a b => b.depth ≤ a.depth).mapM
    (F.LI.synthesizeLoopPaths F.cfg F.blockName)

/-- **`load`**. -/
def load (parse : List Char → Option Json.Value) (file : Option (List Char)) :
    Option LoadedTraces := do
  let text ← file
  let root ← parse text
  let funcObj ← root.get? F.funcName
  let loopTraces ← (F.augmentLoopTraces (F.parseLoops funcObj)).toOption
  some ⟨F.parseTraces funcObj, loopTraces⟩

/-! ### What is loaded from any file -/

/-- One complete trace for each loop, inner loops first. -/
structure WellFormed (traces : LoadedTraces) : Prop where
  loops : (traces.loopTraces.map LoadedLoopTrace.loop).Perm F.LI.loops
  inner_first : traces.loopTraces.Pairwise fun a b => b.loop.header ∉ a.loop.blocks
  valid : ∀ trace ∈ traces.loopTraces, ∀ path ∈ trace.iterationPaths,
    isStructurallyValidLoopPath trace.loop path = true
  covers : ∀ trace ∈ traces.loopTraces, ∀ bb ∈ trace.loop.blocks,
    F.LI.getLoopFor bb = some trace.loop → ∃ path ∈ trace.iterationPaths, .real bb ∈ path.blocks
  sorted : ∀ trace ∈ traces.loopTraces,
    trace.iterationPaths.Pairwise fun a b => b.count ≤ a.count
  function_sorted : traces.functionPaths.Pairwise fun a b => b.count ≤ a.count

section

variable {F} {trace : LoadedLoopTrace} {paths : List EnumeratedPath}

theorem sorted_mergeSort_count (paths : List EnumeratedPath) :
    (paths.mergeSort fun a b => b.count ≤ a.count).Pairwise fun a b => b.count ≤ a.count := by
  refine (List.pairwise_mergeSort (fun a b c hab hbc => ?_) (fun a b => ?_) paths).imp
    fun h => of_decide_eq_true h
  · exact decide_eq_true ((of_decide_eq_true hbc).trans (of_decide_eq_true hab))
  · simpa using Nat.le_total b.count a.count

/-- The fields of a trace the augmentation starts from, and valid paths only. -/
structure IsCandidate (F : TraceLoader) (trace : LoadedLoopTrace) : Prop where
  depth : trace.depth = F.LI.getLoopDepth trace.loop
  members : trace.members = trace.loop.blocks.map .real
  valid : ∀ path ∈ trace.iterationPaths, isStructurallyValidLoopPath trace.loop path = true

theorem isCandidate_addPaths (h : IsCandidate F trace) : IsCandidate F (addPaths trace paths) where
  depth := h.depth
  members := h.members
  valid := by
    have hfold : ∀ acc : List EnumeratedPath,
        (∀ path ∈ acc, isStructurallyValidLoopPath trace.loop path = true) →
        ∀ path ∈ paths.foldl (addPath trace.loop) acc,
          isStructurallyValidLoopPath trace.loop path = true := by
      induction paths with
      | nil => exact fun acc hacc => hacc
      | cons path paths ih =>
        intro acc hacc
        rw [List.foldl_cons]
        refine ih _ ?_
        rw [addPath]
        split_ifs with hnew
        · rw [Bool.and_eq_true] at hnew
          exact List.forall_mem_append.2 ⟨hacc, List.forall_mem_singleton.2 hnew.1⟩
        · exact hacc
    exact hfold _ h.valid

theorem map_loop_mergeParsed (augmented : List LoadedLoopTrace)
    (parsed : Loop × List EnumeratedPath) :
    (mergeParsed augmented parsed).map LoadedLoopTrace.loop =
      augmented.map LoadedLoopTrace.loop := by
  rw [mergeParsed, List.map_map]
  refine List.map_congr_left fun trace _ => ?_
  rw [Function.comp_apply]
  split_ifs <;> rfl

/-- Merging keeps the loops in their order and adds valid paths only. -/
theorem foldl_mergeParsed (parsed : List (Loop × List EnumeratedPath))
    {augmented : List LoadedLoopTrace} (h : ∀ trace ∈ augmented, IsCandidate F trace) :
    (parsed.foldl mergeParsed augmented).map LoadedLoopTrace.loop =
        augmented.map LoadedLoopTrace.loop ∧
      ∀ trace ∈ parsed.foldl mergeParsed augmented, IsCandidate F trace := by
  induction parsed generalizing augmented with
  | nil => exact ⟨rfl, h⟩
  | cons p parsed ih =>
    have hmerge : ∀ trace ∈ mergeParsed augmented p, IsCandidate F trace := by
      intro trace htrace
      obtain ⟨trace', htrace', rfl⟩ := List.mem_map.1 htrace
      split_ifs
      · exact isCandidate_addPaths (h trace' htrace')
      · exact h trace' htrace'
    obtain ⟨hloops, hcandidate⟩ := ih hmerge
    exact ⟨hloops.trans (map_loop_mergeParsed augmented p), hcandidate⟩

theorem forall₂_of_mapM {α β : Type} {f : α → Except String β} {l : List α} {l' : List β}
    (h : l.mapM f = .ok l') : List.Forall₂ (fun a b => f a = .ok b) l l' := by
  induction l generalizing l' with
  | nil => cases h; exact .nil
  | cons a l ih =>
    rw [List.mapM_cons] at h
    cases ha : f a with
    | error e => rw [ha] at h; cases h
    | ok b =>
      rw [ha] at h
      cases hl : l.mapM f with
      | error e => rw [hl] at h; cases h
      | ok bs =>
        rw [hl] at h
        cases h
        exact .cons ha (ih hl)

theorem isStructurallyValidLoopPath_iff {L : Loop} {path : EnumeratedPath} :
    isStructurallyValidLoopPath L path = true ↔
      path.blocks.head? = some (.real L.header) ∧
      (∃ latch, L.latch = some latch ∧ path.blocks.getLast? = some (.real latch)) ∧
      ∀ b ∈ path.blocks, ∃ bb ∈ L.blocks, b = .real bb := by
  have hmember : ∀ b : Block, (b.getLLVMBlock.any L.contains) = true ↔
      ∃ bb ∈ L.blocks, b = .real bb := by
    intro b
    cases b <;> simp [Block.getLLVMBlock, Loop.contains]
  rw [isStructurallyValidLoopPath, Bool.and_eq_true, Bool.and_eq_true, decide_eq_true_eq,
    and_assoc, List.all_eq_true]
  simp only [hmember]
  cases L.latch <;> simp

/-- A path of the reduced graph is valid. -/
theorem isStructurallyValid_of_reduced {cfg : CFGAnalysis} {LI : LoopInfo} {entry : BasicBlock}
    (h : LI.Describes cfg entry) {L : Loop} (hL : L ∈ LI.loops) {latch : BasicBlock}
    (hlatch : L.latch = some latch) {path : List BasicBlock}
    (hpath : LoopInfo.IsReducedPath LI cfg L latch path) :
    isStructurallyValidLoopPath L (LoopInfo.makeEnumeratedPath path) = true := by
  refine isStructurallyValidLoopPath_iff.2 ⟨?_, ⟨latch, hlatch, ?_⟩, ?_⟩
  · simp [LoopInfo.makeEnumeratedPath, hpath.head]
  · simp [LoopInfo.makeEnumeratedPath, hpath.last]
  · intro b hb
    obtain ⟨bb, hbb, rfl⟩ := List.mem_map.1 hb
    exact ⟨bb, h.mem_of_reduced hL hlatch (List.mem_of_mem_head? L.header_first)
      (BreadthFirst.reflTransGen_of_mem hpath.head hpath.last hpath.chain hbb).1, rfl⟩

/-- What the synthesis returns for a candidate. -/
theorem synthesized {entry : BasicBlock} (h : F.LI.Describes F.cfg entry)
    (hred : IsReducible (LoopInfo.Edge F.cfg) entry) {trace' : LoadedLoopTrace}
    (hcandidate : IsCandidate F trace) (hL : trace.loop ∈ F.LI.loops)
    (hok : F.LI.synthesizeLoopPaths F.cfg F.blockName trace = .ok trace') :
    trace'.loop = trace.loop ∧
      (∀ path ∈ trace.iterationPaths, path ∈ trace'.iterationPaths) ∧
      (∀ path ∈ trace'.iterationPaths, path ∈ trace.iterationPaths ∨ path.count = 1) ∧
      (∀ path ∈ trace'.iterationPaths, isStructurallyValidLoopPath trace.loop path = true) ∧
      (∀ bb ∈ trace.loop.blocks, F.LI.getLoopFor bb = some trace.loop →
        ∃ path ∈ trace'.iterationPaths, .real bb ∈ path.blocks) ∧
      trace'.iterationPaths.Pairwise fun a b => b.count ≤ a.count := by
  -- without a single latch the synthesis fails
  obtain ⟨latch, hlatch⟩ : ∃ latch, trace.loop.latch = some latch := by
    cases hlatch : trace.loop.latch with
    | some latch => exact ⟨latch, rfl⟩
    | none =>
      rw [LoopInfo.synthesizeLoopPaths, hlatch] at hok
      cases hok
  obtain ⟨paths, ⟨new, hnew, rfl⟩, hcovers, rfl⟩ :=
    h.synthesizeLoopPaths_spec hred hL hlatch hcandidate.members hok
  refine ⟨rfl, fun path hpath => ?_, fun path hpath => ?_, fun path hpath => ?_,
    fun bb hbb hdirect => ?_, sorted_mergeSort_count _⟩
  · exact List.mem_mergeSort.2 (List.mem_append_left _ hpath)
  · refine (List.mem_append.1 (List.mem_mergeSort.1 hpath)).imp_right fun hpath => ?_
    obtain ⟨blocks, -, rfl⟩ := List.mem_map.1 hpath
    rfl
  · rcases List.mem_append.1 (List.mem_mergeSort.1 hpath) with hpath | hpath
    · exact hcandidate.valid path hpath
    · obtain ⟨blocks, hblocks, rfl⟩ := List.mem_map.1 hpath
      exact isStructurallyValid_of_reduced h hL hlatch (hnew blocks hblocks)
  · obtain ⟨path, hpath, hmem⟩ := List.any_eq_true.1 (hcovers bb hbb hdirect)
    exact ⟨path, List.mem_mergeSort.2 hpath, of_decide_eq_true hmem⟩

/-- The traces before the synthesis, inner loops first. -/
def candidates (F : TraceLoader) (parsed : List (Loop × List EnumeratedPath)) :
    List LoadedLoopTrace :=
  (parsed.foldl mergeParsed (F.LI.getLoopsInPreorder.map F.makeCanonicalLoopTrace)).mergeSort
    fun a b => b.depth ≤ a.depth

theorem candidates_spec (F : TraceLoader) (parsed : List (Loop × List EnumeratedPath)) :
    ((candidates F parsed).map LoadedLoopTrace.loop).Perm F.LI.loops ∧
      (candidates F parsed).Pairwise (fun a b => b.depth ≤ a.depth) ∧
      ∀ trace ∈ candidates F parsed, IsCandidate F trace := by
  have hcanonical : ∀ trace ∈ F.LI.getLoopsInPreorder.map F.makeCanonicalLoopTrace,
      IsCandidate F trace := by
    intro trace htrace
    obtain ⟨L, -, rfl⟩ := List.mem_map.1 htrace
    exact ⟨rfl, rfl, fun _ hpath => absurd hpath List.not_mem_nil⟩
  obtain ⟨hloops, hcandidate⟩ := foldl_mergeParsed parsed hcanonical
  refine ⟨?_, ?_, fun trace htrace => hcandidate trace (List.mem_mergeSort.1 htrace)⟩
  · refine ((List.mergeSort_perm _ _).map _).trans ?_
    rw [hloops, List.map_map, LoopInfo.getLoopsInPreorder]
    exact (List.Perm.of_eq (List.map_id _)).trans (List.reverse_perm _)
  · refine (List.pairwise_mergeSort (fun a b c hab hbc => ?_) (fun a b => ?_) _).imp
      fun h => of_decide_eq_true h
    · exact decide_eq_true ((of_decide_eq_true hbc).trans (of_decide_eq_true hab))
    · simpa using Nat.le_total b.depth a.depth

/-- What a successful load consists of. -/
theorem load_eq_some {parse : List Char → Option Json.Value} {file : Option (List Char)}
    {traces : LoadedTraces} (hload : F.load parse file = some traces) :
    ∃ text root funcObj, file = some text ∧ parse text = some root ∧
      root.get? F.funcName = some funcObj ∧ traces.functionPaths = F.parseTraces funcObj ∧
      List.Forall₂ (fun a b => F.LI.synthesizeLoopPaths F.cfg F.blockName a = .ok b)
        (candidates F (F.parseLoops funcObj)) traces.loopTraces := by
  obtain ⟨text, hfile, hload⟩ := Option.bind_eq_some_iff.1 hload
  obtain ⟨root, hparse, hload⟩ := Option.bind_eq_some_iff.1 hload
  obtain ⟨funcObj, hfunc, hload⟩ := Option.bind_eq_some_iff.1 hload
  obtain ⟨loopTraces, haugment, hload⟩ := Option.bind_eq_some_iff.1 hload
  cases hload
  refine ⟨text, root, funcObj, hfile, hparse, hfunc, rfl, forall₂_of_mapM ?_⟩
  cases hresult : F.augmentLoopTraces (F.parseLoops funcObj) with
  | error e => rw [hresult] at haugment; cases haugment
  | ok loopTraces' =>
    rw [hresult] at haugment
    cases haugment
    exact hresult

theorem nodup_loops {LI : LoopInfo} {cfg : CFGAnalysis} {entry : BasicBlock}
    (h : LI.Describes cfg entry) : LI.loops.Nodup := by
  refine h.inner_first.imp fun {L M} hheader heq => hheader ?_
  rw [← heq]
  exact List.mem_of_mem_head? L.header_first

/-- An inner loop is deeper than the loops around it. -/
theorem getLoopDepth_lt {LI : LoopInfo} {cfg : CFGAnalysis} {entry : BasicBlock}
    (h : LI.Describes cfg entry) {L M : Loop} (hL : L ∈ LI.loops) (hM : M ∈ LI.loops)
    (hinner : M.header ∈ L.blocks) (hne : M ≠ L) : LI.getLoopDepth L < LI.getLoopDepth M := by
  have houter : L.header ∉ M.blocks := by
    intro hback
    obtain ⟨pre, post, hsplit⟩ := List.append_of_mem hL
    have hpair := h.inner_first
    rw [hsplit, List.pairwise_append, List.pairwise_cons] at hpair
    rw [hsplit] at hM
    rcases List.mem_append.1 hM with hM | hM
    · exact hpair.2.2 M hM L List.mem_cons_self hback
    · rcases List.mem_cons.1 hM with rfl | hM
      · exact hne rfl
      · exact hpair.2.1.1 M hM hinner
  -- the loops around the outer one are around the inner one, which has itself besides
  have hsub : (LI.loops.filter fun N => N.contains L.header).Sublist
      (LI.loops.filter fun N => N.contains M.header) := by
    have hboth : (LI.loops.filter fun N => N.contains L.header) =
        (LI.loops.filter fun N => N.contains M.header).filter fun N => N.contains L.header := by
      rw [List.filter_filter]
      refine List.filter_congr fun N hN => ?_
      have himp : N.contains L.header = true → N.contains M.header = true := by
        simp only [Loop.contains, decide_eq_true_eq]
        exact fun hheader => h.subset hN hL hheader hinner
      cases hL' : N.contains L.header with
      | false => rfl
      | true => rw [himp hL']; rfl
    rw [hboth]
    exact List.filter_sublist
  refine lt_of_le_of_ne hsub.length_le fun heq => houter ?_
  have hmem : M ∈ LI.loops.filter fun N => N.contains L.header := by
    rw [hsub.eq_of_length heq, List.mem_filter]
    exact ⟨hM, by simpa [Loop.contains] using List.mem_of_mem_head? M.header_first⟩
  simpa [Loop.contains] using (List.mem_filter.1 hmem).2

/-- The results of the synthesis belong to the candidates, one to one. -/
theorem forall₂_synthesized {entry : BasicBlock} (h : F.LI.Describes F.cfg entry)
    (hred : IsReducible (LoopInfo.Edge F.cfg) entry) {before after : List LoadedLoopTrace}
    (hbefore : ∀ trace ∈ before, IsCandidate F trace ∧ trace.loop ∈ F.LI.loops)
    (hok : List.Forall₂ (fun a b => F.LI.synthesizeLoopPaths F.cfg F.blockName a = .ok b)
      before after) :
    after.map LoadedLoopTrace.loop = before.map LoadedLoopTrace.loop ∧
      ∀ trace' ∈ after, ∃ trace ∈ before,
        F.LI.synthesizeLoopPaths F.cfg F.blockName trace = .ok trace' := by
  induction hok with
  | nil => exact ⟨rfl, fun _ htrace => absurd htrace List.not_mem_nil⟩
  | @cons trace trace' before after hok _ ih =>
    obtain ⟨⟨hcandidate, hL⟩, hbefore⟩ := List.forall_mem_cons.1 hbefore
    obtain ⟨hloops, hmem⟩ := ih hbefore
    refine ⟨?_, List.forall_mem_cons.2 ⟨⟨trace, List.mem_cons_self, hok⟩, fun t ht => ?_⟩⟩
    · rw [List.map_cons, List.map_cons, hloops, (synthesized h hred hcandidate hL hok).1]
    · obtain ⟨t', ht', hok'⟩ := hmem t ht
      exact ⟨t', List.mem_cons_of_mem _ ht', hok'⟩

/-- **Whatever the file says, the traces are complete and valid** in a reducible function: there is
one trace for each loop, inner loops first; its paths go from the header to the latch over blocks of
the loop, by decreasing counts, and every direct member is on one of them. -/
theorem load_wellFormed {entry : BasicBlock} (h : F.LI.Describes F.cfg entry)
    (hred : IsReducible (LoopInfo.Edge F.cfg) entry) {parse : List Char → Option Json.Value}
    {file : Option (List Char)} {traces : LoadedTraces}
    (hload : F.load parse file = some traces) : WellFormed F traces := by
  obtain ⟨text, root, funcObj, -, -, -, hfunction, hloops⟩ := load_eq_some hload
  obtain ⟨hperm, hdepth, hcandidate⟩ := candidates_spec F (F.parseLoops funcObj)
  have hbefore : ∀ trace ∈ candidates F (F.parseLoops funcObj),
      IsCandidate F trace ∧ trace.loop ∈ F.LI.loops := fun trace htrace =>
    ⟨hcandidate trace htrace, hperm.mem_iff.1 (List.mem_map_of_mem htrace)⟩
  obtain ⟨hmap, hmem⟩ := forall₂_synthesized h hred hbefore hloops
  have hspec : ∀ trace' ∈ traces.loopTraces,
      (∀ path ∈ trace'.iterationPaths, isStructurallyValidLoopPath trace'.loop path = true) ∧
      (∀ bb ∈ trace'.loop.blocks, F.LI.getLoopFor bb = some trace'.loop →
        ∃ path ∈ trace'.iterationPaths, .real bb ∈ path.blocks) ∧
      trace'.iterationPaths.Pairwise fun a b => b.count ≤ a.count := by
    intro trace' htrace'
    obtain ⟨trace, htrace, hok⟩ := hmem trace' htrace'
    obtain ⟨hcand, hL⟩ := hbefore trace htrace
    obtain ⟨hloop, -, -, hvalid, hcovers, hsorted⟩ := synthesized h hred hcand hL hok
    rw [hloop]
    exact ⟨hvalid, hcovers, hsorted⟩
  refine ⟨hmap ▸ hperm, ?_, fun t ht => (hspec t ht).1, fun t ht => (hspec t ht).2.1,
    fun t ht => (hspec t ht).2.2, ?_⟩
  · -- inner loops are deeper, and the candidates come by decreasing depth
    have hnodup : (traces.loopTraces.map LoadedLoopTrace.loop).Nodup :=
      hmap ▸ hperm.nodup_iff.2 (nodup_loops h)
    have hinner : ((candidates F (F.parseLoops funcObj)).map LoadedLoopTrace.loop).Pairwise
        fun L M => F.LI.getLoopDepth M ≤ F.LI.getLoopDepth L :=
      List.pairwise_map.2 (hdepth.imp_of_mem fun ha hb hab => by
        rwa [← (hcandidate _ ha).depth, ← (hcandidate _ hb).depth])
    rw [← hmap] at hinner
    have hpair : (traces.loopTraces.map LoadedLoopTrace.loop).Pairwise
        fun L M => M.header ∉ L.blocks :=
      (hinner.and hnodup).imp_of_mem fun {L M} hL hM hLM hheader =>
        not_le.2 (getLoopDepth_lt h ((hmap ▸ hperm).mem_iff.1 hL) ((hmap ▸ hperm).mem_iff.1 hM)
          hheader (Ne.symm hLM.2)) hLM.1
    exact List.pairwise_map.1 hpair
  · rw [hfunction, parseTraces]
    split
    · exact sorted_mergeSort_count _
    · exact .nil

end

/-- The function with two branches and its names. -/
def twoBranchesLoader : TraceLoader where
  funcName := "main"
  blockNames := [some "entry", some "header", some "left", some "right", some "latch", some "exit"]
  cfg := LoopInfo.twoBranches
  LI := ⟨[LoopInfo.twoBranchesLoop]⟩
  tripCount := fun _ => none

def twoBranchesMeta : FuncTraceMeta where
  funcName := "main"
  bbNames := ["entry", "header", "left", "right", "latch", "exit"]
  loops := [⟨"header", "latch", 1, ["header", "left", "right", "latch"], ["latch"]⟩]

/-- The left branch is taken twice. -/
def twoBranchesEvents : List TraceEvent :=
  [.funcEnter twoBranchesMeta, .bb 0, .loopEnter 0 1, .bb 1, .bb 2, .bb 4, .loopIterEnd 0, .bb 1,
    .bb 2, .bb 4, .loopIterEnd 0, .loopExit 0, .bb 5, .funcExit]

def twoBranchesFile : List Char :=
  traceText (traceWriteJson (TraceState.init.run twoBranchesEvents))

theorem twoBranches_loads :
    ∃ traces, twoBranchesLoader.load Json.parse (some twoBranchesFile) = some traces :=
  Option.isSome_iff_exists.1 (by decide +kernel)

theorem load_wellFormed_twoBranches :
    ∃ traces, twoBranchesLoader.load Json.parse (some twoBranchesFile) = some traces ∧
      WellFormed twoBranchesLoader traces := by
  obtain ⟨traces, hload⟩ := twoBranches_loads
  exact ⟨traces, hload, load_wellFormed LoopInfo.twoBranches_describes
    LoopInfo.twoBranches_isReducible hload⟩

/-! ### What is loaded from the file of the runtime -/

/-- The saved paths, but for those whose count has overflown. -/
def recordedPaths (ta : TraceArray) : List EnumeratedPath :=
  (ta.filter fun t => decide (0 ≤ t.count.toInt)).map fun t => ⟨t.bbs.map .real, t.count.toNat⟩

/-- The indices in the saved paths are those of blocks, the ids of the loops those of loops. -/
structure InRange (fs : FuncState) : Prop where
  funcTraces : ∀ t ∈ fs.funcTraces, ∀ i ∈ t.bbs, i < fs.info.bbNames.length
  loopIds : ∀ lr ∈ fs.loopResults, lr.loopId < fs.info.loops.length
  loopTraces : ∀ lr ∈ fs.loopResults, ∀ t ∈ lr.traces, ∀ i ∈ t.bbs, i < fs.info.bbNames.length

/-- The metadata are those of the function: its blocks are named, and its loops have headers of
different names. -/
structure Describes (F : TraceLoader) (info : FuncTraceMeta) : Prop where
  blocks : F.blockNames = info.bbNames.map some
  distinct : info.bbNames.Nodup
  headers : (info.loops.map LoopTraceMeta.headerName).Nodup

section

variable {F : TraceLoader} {info : FuncTraceMeta}

theorem nameToBlock_eq_some {name : String} {bb : BasicBlock}
    (h : F.nameToBlock name = some bb) : F.blockNames[bb]? = some (some name) := by
  obtain ⟨hbb, heq, -⟩ := List.idxOf?_eq_some_iff.1 h
  rw [List.getElem?_eq_getElem hbb, heq]

theorem Describes.nameToBlock_bbName (h : F.Describes info) {i : ℕ}
    (hi : i < info.bbNames.length) : F.nameToBlock (info.bbName i) = some i := by
  rw [nameToBlock, h.blocks, FuncTraceMeta.bbName, List.getD_eq_getElem _ _ hi,
    List.idxOf?_eq_some_iff]
  refine ⟨by rwa [List.length_map], List.getElem_map _, fun j hj heq => ?_⟩
  rw [List.getElem_map, Option.some.injEq, h.distinct.getElem_inj_iff] at heq
  omega

theorem Describes.mapM_parseBlock (h : F.Describes info) {bbs : List ℕ}
    (hrange : ∀ i ∈ bbs, i < info.bbNames.length) :
    ((bbs.map info.bbName).map Json.Value.string).mapM F.parseBlock = some bbs := by
  induction bbs with
  | nil => rfl
  | cons i bbs ih =>
    rw [List.forall_mem_cons] at hrange
    rw [List.map_cons, List.map_cons, List.mapM_cons, ih hrange.2, parseBlock,
      h.nameToBlock_bbName hrange.1]
    rfl

/-- A written path is read again, unless its count is negative. -/
theorem Describes.parseTraceEntry_value (h : F.Describes info) {t : UniqueTrace}
    (hrange : ∀ i ∈ t.bbs, i < info.bbNames.length) :
    F.parseTraceEntry (JsonTrace.value ⟨t.bbs.map info.bbName, t.count.toInt⟩) =
      if 0 ≤ t.count.toInt then some ⟨t.bbs.map .real, t.count.toNat⟩ else none := by
  have hpath : (JsonTrace.value ⟨t.bbs.map info.bbName, t.count.toInt⟩).get? "path" =
      some (.array ((t.bbs.map info.bbName).map .string)) := rfl
  have hcount : (JsonTrace.value ⟨t.bbs.map info.bbName, t.count.toInt⟩).get? "count" =
      some (.int t.count.toInt) := rfl
  simp only [parseTraceEntry, hpath, hcount, Option.isSome_some, if_true]
  have hlt := t.count.isLt
  by_cases hsmall : 2 * t.count.toNat < 2 ^ 32
  · rw [BitVec.toInt_eq_toNat_of_lt hsmall, if_pos (Int.natCast_nonneg _)]
    simp only [Json.Value.int, h.mapM_parseBlock hrange, Option.map_some]
    rw [Nat.mod_eq_of_lt hlt]
  · have hneg : t.count.toInt < 0 := by
      rw [BitVec.toInt_eq_toNat_cond, if_neg hsmall]
      omega
    obtain ⟨n, hn⟩ := Int.eq_negSucc_of_lt_zero hneg
    rw [if_neg (not_le.2 hneg), hn]
    rfl

/-- What is under `traces` is read again. -/
theorem Describes.parseTraces_written (h : F.Describes info) {ta : TraceArray}
    (hrange : ∀ t ∈ ta, ∀ i ∈ t.bbs, i < info.bbNames.length) {obj : Json.Value}
    (hobj : obj.get? "traces" = some (.array ((info.writeTraces ta).map JsonTrace.value))) :
    F.parseTraces obj = (recordedPaths ta).mergeSort fun a b => b.count ≤ a.count := by
  have hentries : ((info.writeTraces ta).map JsonTrace.value).filterMap F.parseTraceEntry =
      recordedPaths ta := by
    clear hobj
    induction ta with
    | nil => rfl
    | cons t ta ih =>
      rw [List.forall_mem_cons] at hrange
      have ih := ih hrange.2
      rw [FuncTraceMeta.writeTraces] at ih ⊢
      rw [List.map_cons, List.map_cons, List.filterMap_cons, h.parseTraceEntry_value hrange.1,
        recordedPaths, List.filter_cons]
      by_cases hcount : 0 ≤ t.count.toInt
      · simp only [hcount, if_true, decide_true, List.map_cons]
        exact congrArg _ ih
      · simp only [hcount, if_false, decide_false, Bool.false_eq_true]
        exact ih
  rw [parseTraces, hobj]
  simp only [hentries]

theorem lookup_map_find {α β γ : Type} [DecidableEq β] {key : α → β} {value : α → γ} {l : List α}
    {b : β} : (l.map fun a => (key a, value a)).lookup b =
      (l.find? fun a => decide (key a = b)).map value := by
  induction l with
  | nil => rfl
  | cons a l ih =>
    rw [List.map_cons, List.lookup_cons, ih, List.find?_cons]
    by_cases h : key a = b
    · simp [h]
    · have hne : (b == key a) = false := by simpa using Ne.symm h
      simp [h, hne]

/-- The latest entry of a function counts. -/
theorem get?_traceValue (S : TraceState) (name : String) :
    (traceValue (traceWriteJson S)).get? name =
      (S.funcStates.reverse.find? fun fs => decide (fs.info.funcName = name)).map fun fs =>
        fs.writeFunction.member.2 := by
  have hlookup : (S.funcStates.reverse.map fun fs => fs.writeFunction.member).lookup name =
      (S.funcStates.reverse.find? fun fs => decide (fs.info.funcName = name)).map fun fs =>
        fs.writeFunction.member.2 :=
    lookup_map_find
  rw [traceValue, Json.Value.get?, traceWriteJson, List.map_map, ← List.map_reverse]
  exact hlookup

theorem header_writeLoop {lr : LoopResult} {loop : LoopTraceMeta}
    (hloop : info.loops[lr.loopId]? = some loop) :
    (info.writeLoop lr).header = loop.headerName := by
  rw [FuncTraceMeta.writeLoop, hloop]

/-- The loops of a call have entries of different names. -/
theorem Describes.nodup_headers (h : F.Describes info) {results : List LoopResult}
    (hids : (results.map LoopResult.loopId).Nodup)
    (hrange : ∀ lr ∈ results, lr.loopId < info.loops.length) :
    (results.map fun lr => (info.writeLoop lr).header).Nodup := by
  refine List.Nodup.map_on (fun lr hlr lr' hlr' heq => ?_) (List.Nodup.of_map _ hids)
  have hget := List.getElem?_eq_getElem (hrange lr hlr)
  have hget' := List.getElem?_eq_getElem (hrange lr' hlr')
  rw [header_writeLoop hget, header_writeLoop hget'] at heq
  have hsame : lr.loopId = lr'.loopId := by
    have hi : lr.loopId < (info.loops.map LoopTraceMeta.headerName).length := by
      simpa using hrange lr hlr
    have hj : lr'.loopId < (info.loops.map LoopTraceMeta.headerName).length := by
      simpa using hrange lr' hlr'
    have hget : (info.loops.map LoopTraceMeta.headerName)[lr.loopId] =
        (info.loops.map LoopTraceMeta.headerName)[lr'.loopId] := by
      rw [List.getElem_map, List.getElem_map, heq]
    exact (List.Nodup.getElem_inj_iff h.headers).1 hget
  exact List.inj_on_of_nodup_map hids hlr hlr' hsame

/-- What is read for a loop of the file. -/
theorem Describes.parseLoop_member (h : F.Describes info) {entry : BasicBlock}
    (hLI : F.LI.Describes F.cfg entry) {lr : LoopResult}
    (hrange : ∀ t ∈ lr.traces, ∀ i ∈ t.bbs, i < info.bbNames.length) {L : Loop} :
    (∀ paths, F.parseLoop (info.writeLoop lr).member = some (L, paths) →
      F.nameToBlock (info.writeLoop lr).header = some L.header ∧
        paths = (recordedPaths lr.traces).mergeSort fun a b => b.count ≤ a.count) ∧
    (L ∈ F.LI.loops → F.nameToBlock (info.writeLoop lr).header = some L.header →
      F.parseLoop (info.writeLoop lr).member =
        some (L, (recordedPaths lr.traces).mergeSort fun a b => b.count ≤ a.count)) := by
  have htraces : F.parseTraces (info.writeLoop lr).member.2 =
      (recordedPaths lr.traces).mergeSort fun a b => b.count ≤ a.count := by
    refine h.parseTraces_written hrange ?_
    have hwritten : (info.writeLoop lr).traces = info.writeTraces lr.traces := by
      rw [FuncTraceMeta.writeLoop]
      split <;> rfl
    rw [← hwritten]
    rfl
  constructor
  · intro paths heq
    obtain ⟨header, hheader, heq⟩ := Option.bind_eq_some_iff.1 heq
    obtain ⟨L', hfind, heq⟩ := Option.bind_eq_some_iff.1 heq
    cases heq
    have hL' : L.header = header := by simpa using List.find?_some hfind
    exact ⟨hL' ▸ hheader, htraces⟩
  · intro hL hheader
    -- headers are distinct, so the search stops at the loop itself
    have hfind : F.LI.getLoopsInPreorder.find? (fun M => decide (M.header = L.header)) =
        some L := by
      cases hM : F.LI.getLoopsInPreorder.find? fun M => decide (M.header = L.header) with
      | none =>
        have hnone := List.find?_eq_none.1 hM L (List.mem_reverse.2 hL)
        simp at hnone
      | some M =>
        have hheaders : M.header = L.header := by simpa using List.find?_some hM
        rw [hLI.header_injective (List.mem_reverse.1 (List.mem_of_find?_eq_some hM)) hL hheaders]
    have hname : F.nameToBlock (info.writeLoop lr).member.1 = some L.header := hheader
    rw [parseLoop, hname, Option.bind_eq_bind, Option.bind_some, hfind, htraces]
    rfl

/-- The entries of the loops in some order. -/
theorem Describes.items_perm {fs : FuncState} (h : F.Describes fs.info) (hdistinct : fs.Distinct)
    (hrange : InRange fs) :
    (Json.Value.object ((fs.loopResults.map fs.info.writeLoop).map JsonLoop.member)).items.Perm
      ((fs.loopResults.map fs.info.writeLoop).map JsonLoop.member) := by
  refine Json.Value.items_object_perm ?_
  have hkeys : ((fs.loopResults.map fs.info.writeLoop).map JsonLoop.member).map Prod.fst =
      fs.loopResults.map fun lr => (fs.info.writeLoop lr).header := by
    rw [List.map_map, List.map_map]
    rfl
  rw [hkeys]
  exact h.nodup_headers hdistinct.loopIds hrange.loopIds

/-- The path was recorded for a loop. -/
def RecordedFor (F : TraceLoader) (fs : FuncState) (L : Loop) (path : EnumeratedPath) : Prop :=
  ∃ lr ∈ fs.loopResults, F.nameToBlock (fs.info.writeLoop lr).header = some L.header ∧
    path ∈ recordedPaths lr.traces

/-- What is read for the loops is what was recorded for them. -/
theorem Describes.mem_parseLoops {fs : FuncState} (h : F.Describes fs.info) {entry : BasicBlock}
    (hLI : F.LI.Describes F.cfg entry) (hdistinct : fs.Distinct) (hrange : InRange fs) {L : Loop}
    (hL : L ∈ F.LI.loops) {path : EnumeratedPath} :
    (∃ paths, (L, paths) ∈ F.parseLoops fs.writeFunction.member.2 ∧ path ∈ paths) ↔
      RecordedFor F fs L path := by
  have hitems := h.items_perm hdistinct hrange
  constructor
  · rintro ⟨paths, hpaths, hpath⟩
    obtain ⟨m, hm, heq⟩ := List.mem_filterMap.1 hpaths
    obtain ⟨l, hl, rfl⟩ := List.mem_map.1 (hitems.mem_iff.1 hm)
    obtain ⟨lr, hlr, rfl⟩ := List.mem_map.1 hl
    obtain ⟨hheader, rfl⟩ := (h.parseLoop_member hLI (hrange.loopTraces lr hlr)).1 paths heq
    exact ⟨lr, hlr, hheader, List.mem_mergeSort.1 hpath⟩
  · rintro ⟨lr, hlr, hheader, hpath⟩
    exact ⟨_, List.mem_filterMap.2 ⟨_,
      hitems.mem_iff.2 (List.mem_map_of_mem (List.mem_map_of_mem hlr)),
      (h.parseLoop_member hLI (hrange.loopTraces lr hlr)).2 hL hheader⟩, List.mem_mergeSort.2 hpath⟩

/-- Of the paths over the blocks of `path`, only `path` itself is there. -/
def Agrees (path : EnumeratedPath) (paths : List EnumeratedPath) : Prop :=
  ∀ p ∈ paths, p.blocks = path.blocks → p = path

theorem agrees_recordedPaths {ta : TraceArray} (hnodup : (ta.map UniqueTrace.bbs).Nodup)
    {path : EnumeratedPath} (hpath : path ∈ recordedPaths ta) : Agrees path (recordedPaths ta) := by
  intro p hp hblocks
  obtain ⟨t, ht, rfl⟩ := List.mem_map.1 hpath
  obtain ⟨u, hu, rfl⟩ := List.mem_map.1 hp
  have hbbs : u.bbs = t.bbs := List.map_injective_iff.2 (fun _ _ h => Block.real.inj h) hblocks
  rw [List.inj_on_of_nodup_map hnodup (List.mem_filter.1 hu).1 (List.mem_filter.1 ht).1 hbbs]

/-- A valid path that agrees with all others gets into the trace. -/
theorem mem_addPaths {trace : LoadedLoopTrace} {path : EnumeratedPath}
    {paths : List EnumeratedPath} (hacc : Agrees path trace.iterationPaths)
    (hpaths : Agrees path paths) :
    Agrees path (addPaths trace paths).iterationPaths ∧
      (path ∈ trace.iterationPaths ∨
          path ∈ paths ∧ isStructurallyValidLoopPath trace.loop path = true →
        path ∈ (addPaths trace paths).iterationPaths) := by
  have hfold : ∀ acc, Agrees path acc → Agrees path (paths.foldl (addPath trace.loop) acc) ∧
      (path ∈ acc ∨ path ∈ paths ∧ isStructurallyValidLoopPath trace.loop path = true →
        path ∈ paths.foldl (addPath trace.loop) acc) := by
    induction paths with
    | nil => exact fun acc hacc => ⟨hacc, fun h => h.resolve_right fun h => List.not_mem_nil h.1⟩
    | cons p paths ih =>
      intro acc hacc
      obtain ⟨hp, hpaths⟩ := List.forall_mem_cons.1 hpaths
      rw [List.foldl_cons, addPath]
      split_ifs with hnew
      · obtain ⟨hagrees, hmem⟩ := ih hpaths (acc ++ [p])
          (List.forall_mem_append.2 ⟨hacc, List.forall_mem_singleton.2 hp⟩)
        refine ⟨hagrees, fun h => hmem ?_⟩
        rcases h with h | ⟨h, hvalid⟩
        · exact .inl (List.mem_append_left _ h)
        · rcases List.mem_cons.1 h with rfl | h
          · exact .inl (by simp)
          · exact .inr ⟨h, hvalid⟩
      · obtain ⟨hagrees, hmem⟩ := ih hpaths acc hacc
        refine ⟨hagrees, fun h => hmem ?_⟩
        rcases h with h | ⟨h, hvalid⟩
        · exact .inl h
        · rcases List.mem_cons.1 h with rfl | h
          · -- a path over the same blocks is there already, and it is the same path
            simp only [hvalid, Bool.true_and, Bool.not_eq_true', Bool.not_eq_false] at hnew
            obtain ⟨p, hp, hsame⟩ := List.any_eq_true.1 hnew
            exact .inl (hacc p hp (of_decide_eq_true hsame) ▸ hp)
          · exact .inr ⟨h, hvalid⟩
  exact hfold _ hacc

/-- The paths that were parsed for a loop get into its trace. -/
theorem mem_foldl_mergeParsed {L : Loop} {path : EnumeratedPath}
    (hvalid : isStructurallyValidLoopPath L path = true)
    {parsed : List (Loop × List EnumeratedPath)}
    (hparsed : ∀ paths, (L, paths) ∈ parsed → Agrees path paths)
    {augmented : List LoadedLoopTrace} {trace : LoadedLoopTrace} (htrace : trace ∈ augmented)
    (hloop : trace.loop = L) (hacc : Agrees path trace.iterationPaths)
    (hmem : path ∈ trace.iterationPaths ∨ ∃ paths, (L, paths) ∈ parsed ∧ path ∈ paths) :
    ∃ trace' ∈ parsed.foldl mergeParsed augmented,
      trace'.loop = L ∧ path ∈ trace'.iterationPaths := by
  induction parsed generalizing augmented trace with
  | nil =>
    obtain hmem | ⟨paths, hpaths, -⟩ := hmem
    · exact ⟨trace, htrace, hloop, hmem⟩
    · exact absurd hpaths List.not_mem_nil
  | cons p parsed ih =>
    rw [List.foldl_cons]
    have htail : ∀ paths, (L, paths) ∈ parsed → Agrees path paths := fun paths hpaths =>
      hparsed paths (List.mem_cons_of_mem _ hpaths)
    -- the entry is merged into the trace of its own loop only
    by_cases hp : trace.loop = p.1
    · have hmerged : addPaths trace p.2 ∈ mergeParsed augmented p :=
        List.mem_map.2 ⟨trace, htrace, if_pos hp⟩
      obtain ⟨hagrees, hin⟩ := mem_addPaths hacc
        (hparsed p.2 (List.mem_cons.2 (.inl (by rw [← hloop, hp]))))
      refine ih htail hmerged hloop hagrees ?_
      rcases hmem with hmem | ⟨paths, hpaths, hmem⟩
      · exact .inl (hin (.inl hmem))
      · rcases List.mem_cons.1 hpaths with rfl | hpaths
        · exact .inl (hin (.inr ⟨hmem, hloop ▸ hvalid⟩))
        · exact .inr ⟨paths, hpaths, hmem⟩
    · have hmerged : trace ∈ mergeParsed augmented p :=
        List.mem_map.2 ⟨trace, htrace, if_neg hp⟩
      refine ih htail hmerged hloop hacc (hmem.imp_right ?_)
      rintro ⟨paths, hpaths, hmem⟩
      rcases List.mem_cons.1 hpaths with rfl | hpaths
      · exact absurd hloop hp
      · exact ⟨paths, hpaths, hmem⟩

theorem mem_of_mem_addPaths {trace : LoadedLoopTrace} {path : EnumeratedPath}
    {paths : List EnumeratedPath} (h : path ∈ (addPaths trace paths).iterationPaths) :
    path ∈ trace.iterationPaths ∨ path ∈ paths := by
  have hfold : ∀ acc, path ∈ paths.foldl (addPath trace.loop) acc → path ∈ acc ∨ path ∈ paths := by
    clear h
    induction paths with
    | nil => exact fun acc hmem => .inl hmem
    | cons p paths ih =>
      intro acc hmem
      rcases ih _ hmem with hmem | hmem
      · rw [addPath] at hmem
        split_ifs at hmem
        · exact (List.mem_append.1 hmem).imp_right fun hp =>
            List.mem_cons.2 (.inl (List.mem_singleton.1 hp))
        · exact .inl hmem
      · exact .inr (List.mem_cons_of_mem _ hmem)
  exact hfold _ h

/-- Nothing else gets into a trace. -/
theorem mem_of_foldl_mergeParsed {parsed : List (Loop × List EnumeratedPath)}
    {augmented : List LoadedLoopTrace} :
    ∀ trace ∈ parsed.foldl mergeParsed augmented, ∀ path ∈ trace.iterationPaths,
      (∃ trace' ∈ augmented, trace'.loop = trace.loop ∧ path ∈ trace'.iterationPaths) ∨
        ∃ paths, (trace.loop, paths) ∈ parsed ∧ path ∈ paths := by
  induction parsed generalizing augmented with
  | nil => exact fun trace htrace path hpath => .inl ⟨trace, htrace, rfl, hpath⟩
  | cons p parsed ih =>
    intro trace htrace path hpath
    rcases ih trace htrace path hpath with ⟨trace₁, htrace₁, hloop, hpath₁⟩ | ⟨paths, hpaths, hmem⟩
    · obtain ⟨trace₂, htrace₂, rfl⟩ := List.mem_map.1 htrace₁
      by_cases hp : trace₂.loop = p.1
      · rw [if_pos hp] at hloop hpath₁
        refine (mem_of_mem_addPaths hpath₁).imp (fun hpath => ⟨trace₂, htrace₂, hloop, hpath⟩)
          fun hpath => ⟨p.2, ?_, hpath⟩
        rw [← hloop]
        exact List.mem_cons.2 (.inl (Prod.ext hp rfl))
      · rw [if_neg hp] at hloop hpath₁
        exact .inl ⟨trace₂, htrace₂, hloop, hpath₁⟩
    · exact .inr ⟨paths, List.mem_cons_of_mem _ hpaths, hmem⟩

/-- All paths that are read for a loop agree with each other. -/
theorem Describes.agrees_parseLoops {fs : FuncState} (h : F.Describes fs.info) {entry : BasicBlock}
    (hLI : F.LI.Describes F.cfg entry) (hdistinct : fs.Distinct) (hrange : InRange fs) {L : Loop}
    {path : EnumeratedPath} (hpath : RecordedFor F fs L path) {paths : List EnumeratedPath}
    (hpaths : (L, paths) ∈ F.parseLoops fs.writeFunction.member.2) : Agrees path paths := by
  obtain ⟨lr, hlr, hheader, hpath⟩ := hpath
  obtain ⟨m, hm, heq⟩ := List.mem_filterMap.1 hpaths
  obtain ⟨l, hl, rfl⟩ := List.mem_map.1 ((h.items_perm hdistinct hrange).mem_iff.1 hm)
  obtain ⟨lr', hlr', rfl⟩ := List.mem_map.1 hl
  obtain ⟨hheader', rfl⟩ := (h.parseLoop_member hLI (hrange.loopTraces lr' hlr')).1 paths heq
  have hname := (nameToBlock_eq_some hheader').symm.trans (nameToBlock_eq_some hheader)
  obtain rfl : lr' = lr := List.inj_on_of_nodup_map
    (h.nodup_headers hdistinct.loopIds hrange.loopIds) hlr' hlr (by simpa using hname)
  exact fun p hp => agrees_recordedPaths (hdistinct.loopTraces lr' hlr') hpath p
    (List.mem_mergeSort.1 hp)

end

end TraceLoader
end Bao.Schematic
