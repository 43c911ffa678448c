import Bao.Graph.ShortestPath
import Bao.Schematic.Intervals

/-!
# The path of the solver

The arcs of the reachable checkpoint graph go from lower to higher nodes, so relaxing them node by
node finds a shortest path from the start of the trace to its end (`Bao.Graph.ShortestPath`), and
what `solve` returns is read off such a path (`solve_path`). So every allocation it returns is that
of an interval it tried (`solve_spec`).
-/

namespace Bao.Schematic

namespace RCGSolver

open Problem Bao.Graph

/-- The arcs of the reachable checkpoint graph. -/
def arcs : ShortestPath.Arcs RCGEdge ℚ := ⟨RCGEdge.src, RCGEdge.dst, RCGEdge.weight⟩

/-- A path of the reachable checkpoint graph from the start of the trace to its end. -/
def Problem.IsStartToEnd (P : Problem) (tracker : VMAddressTracker) (path : List RCGEdge) : Prop :=
  ShortestPath.IsPath arcs (P.createReachableCheckpointGraph tracker).1 0 P.endNode path

/-- The checkpoint at the end of an arc. -/
def Problem.checkpointAt (P : Problem) (n : ℕ) : Option CFGEdge :=
  match P.nodeAt n with
  | .candidateEdge i => some ⟨P.blockAt (i - 1), P.blockAt i⟩
  | _ => none

/-- What `solve` reads off a path. -/
def Problem.resultOf (P : Problem) (path : List RCGEdge) : RCGResult where
  totalCost := ShortestPath.length arcs path
  selectedCheckpoints := path.filterMap fun e => P.checkpointAt e.dst
  allocations := path.map RCGEdge.allocation
  intervalBlocks := path.map RCGEdge.blocks

variable {P : Problem} {tracker : VMAddressTracker}

/-! ### The order of the arcs -/

theorem endNode_pos (P : Problem) : 0 < P.endNode := by
  simp [endNode, getCheckpointsFromTrace]

/-- The arcs go from lower to higher nodes, and none leaves the end. -/
theorem src_lt_dst {e : RCGEdge}
    (he : e ∈ (P.createReachableCheckpointGraph tracker).1) :
    e.src < e.dst ∧ e.src < P.endNode := by
  obtain ⟨p, hp, -, rfl⟩ := mem_arcs_iff.mp he
  have hpos := endNode_pos P
  have hvalid := valid_of_mem_evaluated p hp
  obtain ⟨I, b⟩ := p
  cases I with
  | interior i j => exact ⟨hvalid.2.2, hvalid.1.2⟩
  | fromStart j => exact ⟨hvalid.1, hpos⟩
  | toEnd i => exact ⟨hvalid.2, hvalid.2⟩
  | whole => exact ⟨hpos, hpos⟩

/-! ### Labels -/

/-- The arcs in the order in which they are relaxed. -/
private def orderedArcs (numNodes : ℕ) (adj : List RCGEdge) : List RCGEdge :=
  (List.range numNodes).flatMap fun i => adj.filter fun e => e.src = i

private theorem relax_eq (dist : Distances) (e : RCGEdge) :
    relax dist e = ShortestPath.relax arcs dist e := by
  simp only [relax, ShortestPath.relax, arcs]
  cases dist e.src with
  | none => rfl
  | some l =>
    cases dist e.dst with
    | none => rfl
    | some l' =>
      by_cases hlt : l.1 + e.weight < l'.1
      · exact (if_pos hlt).trans (if_pos hlt).symm
      · exact (if_neg hlt).trans (if_neg hlt).symm

private theorem distances_eq (numNodes : ℕ) (adj : List RCGEdge) :
    distances numNodes adj =
      (orderedArcs numNodes adj).foldl (ShortestPath.relax arcs) ShortestPath.initial := by
  rw [orderedArcs, List.foldl_flatMap, distances, funext₂ relax_eq]
  rfl

private theorem backtrack_eq (dist : Distances) (fuel n : ℕ) (path : List RCGEdge) :
    backtrack dist fuel n path = ShortestPath.backtrack arcs dist fuel n path := by
  induction fuel generalizing n path with
  | zero => rfl
  | succ fuel ih =>
    rw [backtrack, ShortestPath.backtrack]
    cases dist n with
    | none => rfl
    | some l =>
      obtain ⟨d, o⟩ := l
      cases o with
      | none => rfl
      | some e => exact ih e.src (e :: path)

/-- The labels of the solver. -/
private theorem labelled_distances :
    ShortestPath.Labelled arcs
      (orderedArcs P.getCheckpointsFromTrace.length (P.createReachableCheckpointGraph tracker).1)
      (distances P.getCheckpointsFromTrace.length
        (P.createReachableCheckpointGraph tracker).1) := by
  rw [distances_eq]
  refine ShortestPath.labelled_foldl (fun e he => ?_) ?_
  · obtain ⟨i, -, he⟩ := List.mem_flatMap.mp he
    exact (src_lt_dst (List.mem_filter.mp he).1).1
  · refine List.pairwise_flatMap.mpr ⟨fun i _ => ?_, List.pairwise_lt_range.imp fun hlt => ?_⟩
    · refine List.pairwise_of_forall_mem_list fun e he e' he' => ?_
      have hsrc := of_decide_eq_true (List.mem_filter.mp he).2
      have hsrc' := of_decide_eq_true (List.mem_filter.mp he').2
      exact (hsrc.trans hsrc'.symm).le
    · intro e he e' he'
      have hsrc := of_decide_eq_true (List.mem_filter.mp he).2
      have hsrc' := of_decide_eq_true (List.mem_filter.mp he').2
      show e.src ≤ e'.src
      omega

/-- The order of the arcs makes no difference for paths. -/
private theorem isPath_orderedArcs {a b : ℕ} {path : List RCGEdge} :
    ShortestPath.IsPath arcs (orderedArcs P.getCheckpointsFromTrace.length
      (P.createReachableCheckpointGraph tracker).1) a b path ↔
    ShortestPath.IsPath arcs (P.createReachableCheckpointGraph tracker).1 a b path := by
  have hmem : ∀ e, e ∈ orderedArcs P.getCheckpointsFromTrace.length
      (P.createReachableCheckpointGraph tracker).1 ↔
      e ∈ (P.createReachableCheckpointGraph tracker).1 := by
    intro e
    rw [orderedArcs, List.mem_flatMap]
    refine ⟨fun ⟨_, _, he⟩ => (List.mem_filter.mp he).1, fun he => ?_⟩
    have hlt : e.src < P.getCheckpointsFromTrace.length - 1 := (src_lt_dst he).2
    exact ⟨e.src, List.mem_range.mpr (by omega), List.mem_filter.mpr ⟨he, by simp⟩⟩
  induction path generalizing a with
  | nil => exact Iff.rfl
  | cons e path ih => exact and_congr (hmem e) (and_congr Iff.rfl ih)

/-! ### The path -/

/-- **What `solve` returns**: the tracker of the graph it built, and the result of a shortest path
from the start to the end, if the graph has a path at all. -/
theorem solve_path (P : Problem) (tracker : VMAddressTracker) :
    (solve P tracker).2 = (P.createReachableCheckpointGraph tracker).2 ∧
      (∀ result, (solve P tracker).1 = some result → ∃ path, P.IsStartToEnd tracker path ∧
        result = P.resultOf path ∧ ∀ path', P.IsStartToEnd tracker path' →
          ShortestPath.length arcs path ≤ ShortestPath.length arcs path') ∧
      ((solve P tracker).1 = none → ∀ path, ¬P.IsStartToEnd tracker path) := by
  have hlabelled : ShortestPath.Labelled arcs _ (distances P.getCheckpointsFromTrace.length
      (P.createReachableCheckpointGraph tracker).1) := labelled_distances
  have hend : P.endNode = P.getCheckpointsFromTrace.length - 1 := rfl
  -- the label of the end bounds every path
  have hbound : ∀ path, P.IsStartToEnd tracker path → ∃ d o,
      distances P.getCheckpointsFromTrace.length (P.createReachableCheckpointGraph tracker).1
        P.endNode = some (d, o) ∧ d ≤ ShortestPath.length arcs path := by
    intro path hpath
    obtain ⟨d, o, hd, hle⟩ := hlabelled.le_length (isPath_orderedArcs.mpr hpath) hlabelled.start
    exact ⟨d, o, hd, by rwa [zero_add] at hle⟩
  rw [solve]
  simp only [← hend]
  cases hdist : distances P.getCheckpointsFromTrace.length
      (P.createReachableCheckpointGraph tracker).1 P.endNode with
  | none =>
    refine ⟨rfl, by simp, fun _ path hpath => ?_⟩
    obtain ⟨d, o, hd, -⟩ := hbound path hpath
    simp [hdist] at hd
  | some label =>
    refine ⟨rfl, fun result hresult => ?_, by simp⟩
    obtain ⟨total, o⟩ := label
    have hfuel : P.endNode ≤ P.getCheckpointsFromTrace.length := by omega
    have hnil : ShortestPath.IsPath arcs (orderedArcs P.getCheckpointsFromTrace.length
        (P.createReachableCheckpointGraph tracker).1) P.endNode P.endNode [] := rfl
    obtain ⟨hpath, hlength⟩ := hlabelled.backtrack (fun e he => (src_lt_dst
      (List.mem_filter.mp (List.mem_flatMap.mp he).choose_spec.2).1).1) hfuel hdist hnil
    rw [← backtrack_eq] at hpath hlength
    rw [ShortestPath.length_nil, add_zero] at hlength
    refine ⟨_, isPath_orderedArcs.mp hpath, ?_, fun path' hpath' => ?_⟩
    · rw [resultOf, hlength]
      exact (Option.some.inj hresult).symm
    · obtain ⟨d', o', hd', hle⟩ := hbound path' hpath'
      rw [hdist] at hd'
      obtain ⟨rfl, -⟩ := Prod.mk.inj (Option.some.inj hd')
      exact hlength.le.trans hle

/-- **The allocations of a result** are those of arcs. -/
theorem solve_spec {r : Option RCGResult} {tracker' : VMAddressTracker}
    (h : solve P tracker = (r, tracker')) :
    tracker' = (P.createReachableCheckpointGraph tracker).2 ∧
      ∀ result ∈ r, ∀ a ∈ result.allocations,
        ∃ e ∈ (P.createReachableCheckpointGraph tracker).1, e.allocation = a := by
  obtain ⟨htracker, hresult, -⟩ := solve_path P tracker
  rw [h] at htracker hresult
  refine ⟨htracker, fun result hr a ha => ?_⟩
  obtain ⟨path, hpath, rfl, -⟩ := hresult result hr
  obtain ⟨e, he, rfl⟩ := List.mem_map.mp ha
  exact ⟨e, hpath.mem e he, rfl⟩

end RCGSolver

end Bao.Schematic
