import Bao.Schematic.Pass
import Mathlib

/-!
# The traces handed to the solver

The solver leaves out the first and the last block of what it is given, so these have to be analyzed
already, and there has to be a block between them (`IsSubTrace`).

* `extractNotFixedBBPaths` cuts a trace with analyzed ends into sub-traces, one for each maximal
  unanalyzed stretch (`extractNotFixedBBPaths_spec`).
* `extractNotFixedBBTrace` builds a sub-trace for an uncovered block only if the block has an
  analyzed predecessor and the walk from it along unanalyzed blocks stops before an analyzed one
  (`isSubTrace_extractNotFixedBBTrace_iff`). An uncovered exit stops it elsewhere
  (`not_subTracesWellFormed_twoExits`).
-/

namespace Bao.Schematic

/-- **A sub-trace**: an analyzed block, some unanalyzed ones and an analyzed block. -/
def IsSubTrace (analyzed : Block → Bool) (path : List Block) : Prop :=
  ∃ a mid c, path = a :: mid ++ [c] ∧ analyzed a = true ∧ analyzed c = true ∧ mid ≠ [] ∧
    ∀ b ∈ mid, analyzed b = false

/-- A sub-trace is long enough for the solver. -/
theorem IsSubTrace.three_le_length {analyzed : Block → Bool} {path : List Block}
    (h : IsSubTrace analyzed path) : 3 ≤ path.length := by
  obtain ⟨a, mid, c, rfl, -, -, hmid, -⟩ := h
  have := List.length_pos_of_ne_nil hmid
  simp only [List.length_append, List.length_cons, List.length_nil]
  omega

/-- The maximal unanalyzed stretches of a trace. -/
def unanalyzedStretches (analyzed : Block → Bool) (trace : List Block) : List (List Block) :=
  (trace.splitOnP analyzed).filter fun stretch => !stretch.isEmpty

namespace SchematicSolution

/-! ### Cutting a trace -/

section Scan

variable {analyzed : Block → Bool}

/-- An unanalyzed stretch is registered block by block. -/
private theorem foldl_scan_unfixed {mid : List Block} (hmid : ∀ b ∈ mid, analyzed b = false)
    (paths : List (List Block)) (path : List Block) (lastFixedBB : Option Block) :
    mid.foldl (PathScan.scan analyzed) ⟨paths, path, true, lastFixedBB⟩ =
      ⟨paths, path ++ mid, true, lastFixedBB⟩ := by
  induction mid generalizing path with
  | nil => simp
  | cons b mid ih =>
    obtain ⟨hb, hmid⟩ := List.forall_mem_cons.mp hmid
    rw [List.foldl_cons, PathScan.scan]
    simp only [if_true, hb, Bool.false_eq_true, if_false]
    rw [ih hmid, List.append_assoc, List.singleton_append]

/-- The block after the first analyzed one of a list that has one. -/
private theorem exists_first_analyzed {l : List Block} {c : Block} (hc : l.getLast? = some c)
    (hanalyzed : analyzed c = true) : ∃ mid d rest, l = mid ++ d :: rest ∧ analyzed d = true ∧
      (∀ b ∈ mid, analyzed b = false) ∧ (d :: rest).getLast? = some c := by
  induction l with
  | nil => cases hc
  | cons b l ih =>
    by_cases hb : analyzed b = true
    · exact ⟨[], b, l, rfl, hb, by simp, hc⟩
    · cases l with
      | nil =>
        obtain rfl : b = c := Option.some.inj hc
        exact absurd hanalyzed hb
      | cons b' l =>
        rw [List.getLast?_cons_cons] at hc
        obtain ⟨mid, d, rest, heq, hd, hmid, hlast⟩ := ih hc
        exact ⟨b :: mid, d, rest, by rw [heq]; rfl, hd,
          List.forall_mem_cons.mpr ⟨Bool.eq_false_iff.mpr hb, hmid⟩, hlast⟩

private theorem stretches_cons {a : Block} (ha : analyzed a = true) (l : List Block) :
    unanalyzedStretches analyzed (a :: l) = unanalyzedStretches analyzed l := by
  rw [unanalyzedStretches, List.splitOnP_cons_eq_if_modifyHead, if_pos ha]
  rfl

private theorem stretches_append {mid : List Block} (hne : mid ≠ [])
    (hmid : ∀ b ∈ mid, analyzed b = false) {c : Block} (hc : analyzed c = true) (l : List Block) :
    unanalyzedStretches analyzed (mid ++ c :: l) = mid :: unanalyzedStretches analyzed l := by
  rw [unanalyzedStretches, List.splitOnP_append_cons_of_forall_mem hmid c hc,
    List.filter_cons_of_pos (by simpa using hne)]
  rfl

/-- **A trace behind an analyzed block**: the scan ends outside a stretch, and the paths it adds are
sub-traces of the trace, one for each stretch. -/
private theorem foldl_scan_spec (analyzed : Block → Bool) (n : ℕ) {l : List Block}
    (hn : l.length ≤ n) {a c : Block}
    (ha : analyzed a = true) (hc : analyzed c = true) (hlast : (a :: l).getLast? = some c)
    (paths : List (List Block)) : ∃ new,
      (l.foldl (PathScan.scan analyzed) ⟨paths, [], false, some a⟩).paths = paths ++ new ∧
      (l.foldl (PathScan.scan analyzed) ⟨paths, [], false, some a⟩).registeringPath = false ∧
      (∀ path ∈ new, IsSubTrace analyzed path ∧ path <:+: a :: l) ∧
      new.map (fun path => path.tail.dropLast) = unanalyzedStretches analyzed l := by
  induction n generalizing l a paths with
  | zero =>
    obtain rfl := List.length_eq_zero_iff.mp (Nat.le_zero.mp hn)
    exact ⟨[], by simp, rfl, by simp, rfl⟩
  | succ n ih =>
    cases l with
    | nil => exact ⟨[], by simp, rfl, by simp, rfl⟩
    | cons b l =>
      rw [List.getLast?_cons_cons] at hlast
      have hlength : l.length ≤ n := by simpa using hn
      by_cases hb : analyzed b = true
      · -- the next analyzed block takes the place of this one
        obtain ⟨new, hpaths, hregistering, hnew, hstretches⟩ := ih hlength hb hlast paths
        have hscan : PathScan.scan analyzed ⟨paths, [], false, some a⟩ b =
            ⟨paths, [], false, some b⟩ := by
          simp [PathScan.scan, hb]
        rw [List.foldl_cons, hscan, stretches_cons hb]
        refine ⟨new, hpaths, hregistering, fun path hpath => ?_, hstretches⟩
        obtain ⟨hsub, hinfix⟩ := hnew path hpath
        exact ⟨hsub, hinfix.trans (List.suffix_cons a _).isInfix⟩
      · -- a stretch starts, and goes on to the next analyzed block
        have hb : analyzed b = false := Bool.eq_false_iff.mpr hb
        have hne : l ≠ [] := by
          rintro rfl
          obtain rfl : b = c := Option.some.inj hlast
          rw [hc] at hb
          cases hb
        obtain ⟨b', l', rfl⟩ := List.exists_cons_of_ne_nil hne
        rw [List.getLast?_cons_cons] at hlast
        obtain ⟨mid, d, rest, heq, hd, hmid, hlast'⟩ := exists_first_analyzed hlast hc
        rw [heq] at hlength ⊢
        obtain ⟨new, hpaths, hregistering, hnew, hstretches⟩ :=
          ih (l := rest) (by simp at hlength; omega) hd hlast' (paths ++ [a :: b :: mid ++ [d]])
        have hscan : (b :: (mid ++ d :: rest)).foldl (PathScan.scan analyzed)
            ⟨paths, [], false, some a⟩ = rest.foldl (PathScan.scan analyzed)
              ⟨paths ++ [a :: b :: mid ++ [d]], [], false, some d⟩ := by
          rw [List.foldl_cons, List.foldl_append, List.foldl_cons]
          have hstart : PathScan.scan analyzed ⟨paths, [], false, some a⟩ b =
              ⟨paths, [a, b], true, none⟩ := by
            simp [PathScan.scan, hb]
          rw [hstart, foldl_scan_unfixed hmid]
          simp [PathScan.scan, hd]
        have hmid' : ∀ x ∈ b :: mid, analyzed x = false := List.forall_mem_cons.mpr ⟨hb, hmid⟩
        rw [hscan]
        refine ⟨(a :: b :: mid ++ [d]) :: new, ?_, hregistering, List.forall_mem_cons.mpr ⟨?_, ?_⟩,
          ?_⟩
        · rw [hpaths, List.append_assoc, List.singleton_append]
        · exact ⟨⟨a, b :: mid, d, rfl, ha, hd, by simp, hmid'⟩, [], rest, by simp⟩
        · intro path hpath
          obtain ⟨hsub, hinfix⟩ := hnew path hpath
          refine ⟨hsub, hinfix.trans (List.IsSuffix.isInfix ⟨a :: b :: mid, by simp⟩)⟩
        · have htail : (a :: b :: mid ++ [d]).tail.dropLast = b :: mid := List.dropLast_concat
          rw [← List.cons_append, stretches_append (by simp) hmid' hd, List.map_cons, hstretches,
            htail]

/-- **A trace with analyzed ends** is cut into sub-traces, one for each maximal unanalyzed stretch,
in order. -/
theorem extractNotFixedBBPaths_spec (solution : SchematicSolution) {trace : List Block}
    {a c : Block} (hhead : trace.head? = some a) (hlast : trace.getLast? = some c)
    (ha : (solution.blockMeta a).analyzed = true) (hc : (solution.blockMeta c).analyzed = true) :
    (∀ path ∈ solution.extractNotFixedBBPaths trace,
      IsSubTrace (fun b => (solution.blockMeta b).analyzed) path ∧ path <:+: trace) ∧
    (solution.extractNotFixedBBPaths trace).map (fun path => path.tail.dropLast) =
      unanalyzedStretches (fun b => (solution.blockMeta b).analyzed) trace := by
  obtain ⟨l, rfl⟩ := List.head?_eq_some_iff.mp hhead
  obtain ⟨new, hpaths, hregistering, hnew, hstretches⟩ :=
    foldl_scan_spec (fun b => (solution.blockMeta b).analyzed) l.length le_rfl ha hc
      hlast []
  have hextract : solution.extractNotFixedBBPaths (a :: l) = new := by
    rw [extractNotFixedBBPaths, List.foldl_cons]
    have hscan : PathScan.scan (fun b => (solution.blockMeta b).analyzed) {} a =
        ⟨[], [], false, some a⟩ := by
      simp [PathScan.scan, ha]
    rw [hscan]
    simp only [hregistering, Bool.false_eq_true, if_false, hpaths, List.nil_append]
  rw [hextract, stretches_cons ha]
  exact ⟨hnew, hstretches⟩

end Scan

/-! ### A trace through an uncovered block -/

section Walk

variable (solution : SchematicSolution) (graph : SchematicGraph)

/-- The first unanalyzed successor of a block. -/
def nextNotFixed (b : Block) : Option Block :=
  (graph.successors b).find? fun n => !(solution.blockMeta n).analyzed

/-- Going on from a block to the first unanalyzed successor stops at the last block of a list: it
has no unanalyzed successor, or the first of them is on the list. -/
structure WalkStops (b : Block) (l : List Block) : Prop where
  head : l.head? = some b
  nodup : l.Nodup
  chain : l.IsChain fun x y => solution.nextNotFixed graph x = some y
  stop : ∀ w ∈ l.getLast?, ∀ y, solution.nextNotFixed graph w = some y → y ∈ l

variable {solution graph}

/-- The walk is determined by the block it starts from. -/
private theorem walk_unique {pre l l' : List Block} {b : Block}
    (hnodup : (pre ++ b :: l).Nodup) (hnodup' : (pre ++ b :: l').Nodup)
    (hchain : (b :: l).IsChain fun x y => solution.nextNotFixed graph x = some y)
    (hchain' : (b :: l').IsChain fun x y => solution.nextNotFixed graph x = some y)
    (hstop : ∀ w ∈ (b :: l).getLast?, ∀ y, solution.nextNotFixed graph w = some y →
      y ∈ pre ++ b :: l)
    (hstop' : ∀ w ∈ (b :: l').getLast?, ∀ y, solution.nextNotFixed graph w = some y →
      y ∈ pre ++ b :: l') : l = l' := by
  induction l generalizing pre b l' with
  | nil =>
    cases l' with
    | nil => rfl
    | cons y l' =>
      have hmem := hstop b rfl y (List.isChain_cons_cons.mp hchain').1
      rw [List.append_cons] at hnodup'
      exact absurd List.mem_cons_self (List.disjoint_of_nodup_append hnodup' hmem)
  | cons x l ih =>
    obtain ⟨hx, hchain⟩ := List.isChain_cons_cons.mp hchain
    cases l' with
    | nil =>
      have hmem := hstop' b rfl x hx
      rw [List.append_cons] at hnodup
      exact absurd List.mem_cons_self (List.disjoint_of_nodup_append hnodup hmem)
    | cons y l' =>
      obtain ⟨hy, hchain'⟩ := List.isChain_cons_cons.mp hchain'
      obtain rfl := Option.some.inj (hx.symm.trans hy)
      have hnodup : ((pre ++ [b]) ++ x :: l).Nodup := by simpa using hnodup
      rw [ih hnodup (by simpa using hnodup') hchain hchain'
        (fun w hw y hy => by simpa using hstop w (by simpa using hw) y hy)
        (fun w hw y hy => by simpa using hstop' w (by simpa using hw) y hy)]

/-- What the walk visits after its first block are targets of edges. -/
private theorem mem_of_nextNotFixed {x y : Block} (h : solution.nextNotFixed graph x = some y) :
    y ∈ graph.edges.map CFGEdge.dst ∧ (solution.blockMeta y).analyzed = false := by
  have hmem := List.mem_of_find?_eq_some h
  obtain ⟨e, he, rfl⟩ := List.mem_map.mp hmem
  exact ⟨List.mem_map_of_mem (List.mem_filter.mp he).1, by simpa using List.find?_some h⟩

/-- A walk without repetition is not longer than the graph allows. -/
private theorem length_le_of_chain {l : List Block} (hnodup : l.Nodup)
    (hchain : l.IsChain fun x y => solution.nextNotFixed graph x = some y) :
    l.length ≤ graph.edges.length + 1 := by
  cases l with
  | nil => exact Nat.zero_le _
  | cons b l =>
    have hmem : ∀ y ∈ l, y ∈ graph.edges.map CFGEdge.dst := by
      clear hnodup
      induction l generalizing b with
      | nil => simp
      | cons y l ih =>
        obtain ⟨hy, hchain⟩ := List.isChain_cons_cons.mp hchain
        exact List.forall_mem_cons.mpr ⟨(mem_of_nextNotFixed hy).1, ih y hchain⟩
    have := ((List.nodup_cons.mp hnodup).2.subperm hmem).length_le
    rw [List.length_map] at this
    exact Nat.succ_le_succ this

/-- **The walk stops** before the fuel runs out. -/
private theorem walkStops_walkNotFixed {fuel : ℕ} {b bb : Block} {l : List Block}
    (hhead : (l ++ [bb]).head? = some b) (hnodup : l.Nodup)
    (hchain : (l ++ [bb]).IsChain fun x y => solution.nextNotFixed graph x = some y)
    (hfuel : graph.edges.length + 2 ≤ fuel + l.length) :
    WalkStops solution graph b (solution.walkNotFixed graph fuel bb l) := by
  obtain ⟨hl, -, hlast⟩ := List.isChain_append.mp hchain
  induction fuel generalizing bb l with
  | zero =>
    have := length_le_of_chain hnodup hl
    omega
  | succ fuel ih =>
    rw [walkNotFixed]
    by_cases hmem : bb ∈ l
    · rw [if_pos hmem]
      have hne : l ≠ [] := List.ne_nil_of_mem hmem
      refine ⟨?_, hnodup, hl, fun w hw y hy => ?_⟩
      · rwa [List.head?_append_of_ne_nil _ hne] at hhead
      · rw [hlast w hw bb rfl] at hy
        exact Option.some.inj hy ▸ hmem
    · have hnodup' : (l ++ [bb]).Nodup := by
        rw [List.nodup_append_comm]
        exact List.nodup_cons.mpr ⟨hmem, hnodup⟩
      rw [if_neg hmem]
      simp only
      split
      next n hn =>
        -- the walk goes on along one more edge
        have hchain' : (l ++ [bb] ++ [n]).IsChain fun x y =>
            solution.nextNotFixed graph x = some y := by
          refine List.isChain_append.mpr ⟨hchain, List.isChain_singleton n, fun x hx y hy => ?_⟩
          rw [List.getLast?_concat] at hx
          obtain rfl := Option.some.inj hx
          obtain rfl := Option.some.inj hy
          exact hn
        obtain ⟨hl', -, hlast'⟩ := List.isChain_append.mp hchain'
        refine ih (by rw [List.head?_append_of_ne_nil _ (by simp)]; exact hhead) hnodup' hchain' ?_
          hl' hlast'
        rw [List.length_append, List.length_singleton]
        omega
      next hnone =>
        refine ⟨hhead, hnodup', hchain, fun w hw y hy => ?_⟩
        rw [List.getLast?_concat] at hw
        obtain rfl := Option.some.inj hw
        exact absurd (hnone.symm.trans hy) (by simp)

/-- The walk of `extractNotFixedBBTrace`. -/
private theorem walkStops_iff {b : Block} {l : List Block} :
    WalkStops solution graph b l ↔
      l = solution.walkNotFixed graph (graph.edges.length + 2) b [] := by
  have hwalk : WalkStops solution graph b
      (solution.walkNotFixed graph (graph.edges.length + 2) b []) :=
    walkStops_walkNotFixed rfl List.nodup_nil (List.isChain_singleton b) (by simp)
  refine ⟨fun h => ?_, fun h => h ▸ hwalk⟩
  obtain ⟨t, ht⟩ := List.head?_eq_some_iff.mp h.head
  obtain ⟨t', ht'⟩ := List.head?_eq_some_iff.mp hwalk.head
  rw [ht] at h ⊢
  rw [ht'] at hwalk ⊢
  have hnodup : ([] ++ b :: t).Nodup := h.nodup
  rw [walk_unique hnodup hwalk.nodup h.chain hwalk.chain h.stop hwalk.stop]

/-- The walk from an unanalyzed block stays among unanalyzed blocks. -/
private theorem WalkStops.unanalyzed {b : Block} {l : List Block}
    (h : WalkStops solution graph b l) (hb : (solution.blockMeta b).analyzed = false) :
    ∀ x ∈ l, (solution.blockMeta x).analyzed = false := by
  obtain ⟨t, rfl⟩ := List.head?_eq_some_iff.mp h.head
  have hchain := h.chain
  clear h
  induction t generalizing b with
  | nil => simpa using hb
  | cons y t ih =>
    obtain ⟨hy, hchain⟩ := List.isChain_cons_cons.mp hchain
    exact List.forall_mem_cons.mpr ⟨hb, ih (mem_of_nextNotFixed hy).2 hchain⟩

/-- **The trace through an uncovered block** is a sub-trace if and only if the block has an analyzed
predecessor and the walk from it stops at a block with an analyzed successor. -/
theorem isSubTrace_extractNotFixedBBTrace_iff {b : Block}
    (hb : (solution.blockMeta b).analyzed = false) :
    IsSubTrace (fun b => (solution.blockMeta b).analyzed)
        (solution.extractNotFixedBBTrace graph b) ↔
      (∃ p ∈ graph.predecessors b, (solution.blockMeta p).analyzed = true) ∧
      ∃ l, WalkStops solution graph b l ∧ ∃ w ∈ l.getLast?, ∃ s ∈ graph.successors w,
        (solution.blockMeta s).analyzed = true := by
  obtain ⟨l, hl⟩ : ∃ l, WalkStops solution graph b l := ⟨_, walkStops_iff.mpr rfl⟩
  have hunanalyzed := hl.unanalyzed hb
  obtain ⟨t, rfl⟩ := List.head?_eq_some_iff.mp hl.head
  obtain ⟨w, hw⟩ : ∃ w, (b :: t).getLast? = some w :=
    ⟨_, List.getLast?_eq_some_getLast (List.cons_ne_nil b t)⟩
  have htrace : solution.extractNotFixedBBTrace graph b =
      ((graph.predecessors b).find? fun b => (solution.blockMeta b).analyzed).toList ++ (b :: t) ++
        ((graph.successors w).find? fun b => (solution.blockMeta b).analyzed).toList := by
    rw [extractNotFixedBBTrace, ← walkStops_iff.mp hl, hw]
    rfl
  have hwalk : (∃ l, WalkStops solution graph b l ∧ ∃ w ∈ l.getLast?, ∃ s ∈ graph.successors w,
      (solution.blockMeta s).analyzed = true) ↔
      ∃ s ∈ graph.successors w, (solution.blockMeta s).analyzed = true := by
    constructor
    · rintro ⟨l', hl', w', hw', hs⟩
      rw [walkStops_iff.mp hl', ← walkStops_iff.mp hl, hw] at hw'
      exact Option.some.inj hw' ▸ hs
    · exact fun hs => ⟨b :: t, hl, w, hw, hs⟩
  have hpred : ((graph.predecessors b).find? fun b => (solution.blockMeta b).analyzed).isSome ↔
      ∃ p ∈ graph.predecessors b, (solution.blockMeta p).analyzed = true := List.find?_isSome
  have hsucc : ((graph.successors w).find? fun b => (solution.blockMeta b).analyzed).isSome ↔
      ∃ s ∈ graph.successors w, (solution.blockMeta s).analyzed = true := List.find?_isSome
  rw [htrace, hwalk, ← hpred, ← hsucc]
  constructor
  · rintro ⟨a, mid, c, heq, ha, hc, -, -⟩
    have hmem : ∀ x ∈ b :: t, (solution.blockMeta x).analyzed ≠ true := fun x hx => by
      rw [hunanalyzed x hx]
      simp
    constructor
    · -- without an analyzed predecessor the trace starts with the block
      by_contra hnone
      rw [Option.not_isSome_iff_eq_none.mp hnone] at heq
      obtain ⟨rfl, -⟩ := List.cons.inj heq
      exact hmem b List.mem_cons_self ha
    · by_contra hnone
      rw [Option.not_isSome_iff_eq_none.mp hnone, Option.toList_none, List.append_nil] at heq
      have hlast := congrArg List.getLast? heq
      rw [List.getLast?_append, hw, List.getLast?_concat] at hlast
      obtain rfl : w = c := Option.some.inj hlast
      exact hmem w (List.mem_of_getLast? hw) hc
  · rintro ⟨hp, hs⟩
    obtain ⟨p, hp⟩ := Option.isSome_iff_exists.mp hp
    obtain ⟨s, hs⟩ := Option.isSome_iff_exists.mp hs
    rw [hp, hs]
    exact ⟨p, b :: t, s, rfl, List.find?_some (p := fun b => (solution.blockMeta b).analyzed) hp,
      List.find?_some (p := fun b => (solution.blockMeta b).analyzed) hs, by simp, hunanalyzed⟩

end Walk

end SchematicSolution

/-! ### All sub-traces -/

/-- **Every trace handed to the solver is well formed**, for a trace with analyzed ends and for an
uncovered block. -/
structure SubTracesWellFormed (solution : SchematicSolution) (graph : SchematicGraph)
    (uncovered : Block) : Prop where
  paths : ∀ trace a c, trace.head? = some a → trace.getLast? = some c →
    (solution.blockMeta a).analyzed = true → (solution.blockMeta c).analyzed = true →
    (∀ path ∈ solution.extractNotFixedBBPaths trace,
      IsSubTrace (fun b => (solution.blockMeta b).analyzed) path ∧ path <:+: trace) ∧
    (solution.extractNotFixedBBPaths trace).map (fun path => path.tail.dropLast) =
      unanalyzedStretches (fun b => (solution.blockMeta b).analyzed) trace
  trace : (solution.blockMeta uncovered).analyzed = false →
    IsSubTrace (fun b => (solution.blockMeta b).analyzed)
      (solution.extractNotFixedBBTrace graph uncovered)

/-- **When the sub-traces are well formed**: if and only if the uncovered block has an analyzed
predecessor and the walk from it stops at a block with an analyzed successor. -/
theorem subTracesWellFormed_iff (solution : SchematicSolution) (graph : SchematicGraph)
    (uncovered : Block) :
    SubTracesWellFormed solution graph uncovered ↔
      ((solution.blockMeta uncovered).analyzed = false →
        (∃ p ∈ graph.predecessors uncovered, (solution.blockMeta p).analyzed = true) ∧
        ∃ l, SchematicSolution.WalkStops solution graph uncovered l ∧ ∃ w ∈ l.getLast?,
          ∃ s ∈ graph.successors w, (solution.blockMeta s).analyzed = true) := by
  constructor
  · exact fun h hb => (SchematicSolution.isSubTrace_extractNotFixedBBTrace_iff hb).mp (h.trace hb)
  · exact fun h => ⟨fun trace a c hhead hlast ha hc =>
      solution.extractNotFixedBBPaths_spec hhead hlast ha hc, fun hb =>
      (SchematicSolution.isSubTrace_extractNotFixedBBTrace_iff hb).mpr (h hb)⟩

/-- A function that returns from block 1 or from block 2, where the one trace returns from block
1. -/
def twoExits : FunctionInput :=
  { cfg := ⟨[0, 1, 2], [(0, 1), (0, 2)], fun _ => 1⟩
    state := ⟨[], fun _ _ => 0, fun _ _ => 0, fun _ _ => none, fun _ => 0, fun _ => false⟩
    functionPaths := [[.real 0, .real 1]] }

/-- The blocks of the trace are analyzed. -/
def twoExitsSolution : SchematicSolution :=
  { blockMeta := fun b =>
      { analyzed := decide (b ∈ [Block.startFunc, .real 0, .real 1, .endFunc]) } }

/-- The CFG with the edges of the trace. -/
def twoExitsGraph : SchematicGraph :=
  (({} : SchematicGraph).addCFGEdges twoExits.cfg).addTraceEdges
    [.startFunc, .real 0, .real 1, .endFunc]

/-- Why a function was not solved. -/
def failureOf : Except Failure (Context × Analysis) → Option Failure
  | .ok _ => none
  | .error e => some e

/-- The trace through the other exit ends with the exit itself and is too short for the solver. -/
theorem not_subTracesWellFormed_twoExits :
    ¬SubTracesWellFormed twoExitsSolution twoExitsGraph (.real 2) ∧
      twoExitsSolution.extractNotFixedBBTrace twoExitsGraph (.real 2) = [.real 0, .real 2] ∧
      failureOf
        (solveFunction twoExits ⟨500, 10, 10, 0, 0, 0, 0, 0, 0, 0, 0, 0, .stable⟩ (fun _ => none)
          {}) = some .fatal := by
  have htrace : twoExitsSolution.extractNotFixedBBTrace twoExitsGraph (.real 2) =
      [.real 0, .real 2] := by
    decide +kernel
  refine ⟨fun h => ?_, htrace, by decide +kernel⟩
  have hlength := (htrace ▸ h.trace (by decide +kernel)).three_le_length
  simp at hlength

end Bao.Schematic
