import Bao.Schematic.SolverPath

/-!
# The partition of a trace

`solve` cuts a trace at the checkpoints of a shortest path of the reachable checkpoint graph
(`solve_path`). A path from the start to the end passes through ascending candidate edges: its
intervals are one from the start, interior ones, and one to the end, or the whole trace
(`exists_between`). So there is one checkpoint between two adjacent intervals (`solve_length`).

What `solve` returns is `IsOptimal`: the intervals are the trace without its two ends, cut at the
selected checkpoints; each was evaluated and meets the budget of its kind; and the total cost is the
least over all paths of the graph.
-/

namespace Bao.Schematic

namespace RCGSolver

open Problem Bao.Graph

/-- The trace positions where a node cuts: the interval before ends just below it. -/
def Problem.cut (P : Problem) (n : ℕ) : ℕ :=
  match P.nodeAt n with
  | .start => 1
  | .candidateEdge i => i
  | .finish => P.pathBlocks.length - 1

/-- The trace edge of a candidate edge. -/
def Problem.edgeAt (P : Problem) (n : ℕ) : CFGEdge := ⟨P.blockAt (P.cut n - 1), P.blockAt (P.cut n)⟩

/-- The intervals behind a candidate edge, for the candidate edges that follow. -/
def Interval.after : ℕ → List ℕ → List Interval
  | i, [] => [.toEnd i]
  | i, j :: nodes => .interior i j :: after j nodes

/-- The intervals that some candidate edges cut a trace into. -/
def Interval.between : List ℕ → List Interval
  | [] => [.whole]
  | j :: nodes => .fromStart j :: after j nodes

/-- The parts of a list between positions. -/
def slices {α : Type*} (l : List α) : ℕ → List ℕ → ℕ → List (List α)
  | a, [], z => [(l.take z).drop a]
  | a, c :: cuts, z => (l.take c).drop a :: slices l c cuts z

/-- **An optimal partition** of the trace. -/
structure IsOptimal (P : Problem) (tracker : VMAddressTracker) (result : RCGResult) : Prop where
  /-- No block between the ends of the trace is lost or repeated. -/
  flatten_intervalBlocks : result.intervalBlocks.flatten = P.pathBlocks.tail.dropLast
  /-- Consecutive intervals meet at the selected checkpoints, and every interval was evaluated and
  costs less than the budget of its kind. -/
  exists_intervals : ∃ (nodes : List ℕ) (intervals : List (Interval × Building)),
    (∀ n ∈ nodes, P.Interior n) ∧ (nodes.map P.cut).IsChain (· < ·) ∧
    result.selectedCheckpoints = nodes.map P.edgeAt ∧
    result.intervalBlocks =
      slices P.pathBlocks 1 (nodes.map P.cut) (P.pathBlocks.length - 1) ∧
    intervals.map Prod.fst = Interval.between nodes ∧
    result.intervalBlocks = intervals.map (fun p => p.1.blocks P) ∧
    result.allocations.map RegionAllocation.intervalEnergy =
      intervals.map (fun p => p.1.cost P p.2.2) ∧
    ∀ p ∈ intervals, p ∈ (P.scan tracker).evaluated ∧ p.1.cost P p.2.2 < p.1.budget P
  /-- The edge inside an isolated call is never selected. -/
  not_callInterior : ∀ edge ∈ result.selectedCheckpoints,
    ¬(P.isCallBlock edge.src = true ∧ P.isCallBlock edge.dst = true)
  /-- No path from the start to the end is cheaper. -/
  isLeast_totalCost : IsLeast {d | ∃ path, P.IsStartToEnd tracker path ∧
    d = ShortestPath.length arcs path} result.totalCost

/-! ### Nodes and cuts -/

section Nodes

variable {P : Problem}

/-- The candidate edges are edges of the trace, in order, and none is inside an isolated call. -/
private theorem exists_edges (P : Problem) : ∃ edges : List ℕ, edges.IsChain (· < ·) ∧
    (∀ i ∈ edges, i + 1 < P.pathBlocks.length ∧
      ¬(P.isCallBlock (P.blockAt i) = true ∧ P.isCallBlock (P.blockAt (i + 1)) = true)) ∧
    P.endNode = edges.length + 1 ∧
    P.nodeAt 0 = .start ∧ P.nodeAt P.endNode = .finish ∧
    ∀ n i, edges[n]? = some i → P.nodeAt (n + 1) = .candidateEdge (i + 1) := by
  refine ⟨(List.range (P.pathBlocks.length - 1)).filter fun i =>
    !(P.isCallBlock (P.blockAt i) && P.isCallBlock (P.blockAt (i + 1))), ?_, ?_, ?_, rfl, ?_, ?_⟩
  · exact (List.pairwise_lt_range.filter _).isChain
  · intro i hi
    obtain ⟨hlt, hcall⟩ := List.mem_filter.mp hi
    refine ⟨by have := List.mem_range.mp hlt; omega, fun hboth => ?_⟩
    simp [hboth.1, hboth.2] at hcall
  · simp [endNode, getCheckpointsFromTrace]
  · simp [endNode, nodeAt, getCheckpointsFromTrace, List.getD_eq_getElem?_getD]
  · intro n i hi
    have hlt := (List.getElem?_eq_some_iff.mp hi).1
    simp only [nodeAt, getCheckpointsFromTrace, List.cons_append, List.getD_cons_succ]
    rw [List.getD_eq_getElem?_getD, List.getElem?_append_left (by simpa using hlt),
      List.getElem?_map, hi]
    rfl

/-- The cuts of the nodes. -/
theorem cut_spec (P : Problem) :
    P.cut 0 = 1 ∧ P.cut P.endNode = P.pathBlocks.length - 1 ∧ 0 < P.endNode ∧
    (∀ n, P.Interior n → P.nodeAt n = .candidateEdge (P.cut n) ∧ 0 < P.cut n ∧
      P.cut n < P.pathBlocks.length ∧
      ¬(P.isCallBlock (P.blockAt (P.cut n - 1)) = true ∧
        P.isCallBlock (P.blockAt (P.cut n)) = true)) ∧
    ∀ m n, P.Interior m → P.Interior n → m < n → P.cut m < P.cut n := by
  obtain ⟨edges, hsorted, hedges, hend, hstart, hfinish, hnode⟩ := exists_edges P
  -- node `n` stands for the `n`-th candidate edge
  have hinterior : ∀ n, P.Interior n → ∃ h : n - 1 < edges.length,
      P.nodeAt n = .candidateEdge (edges[n - 1] + 1) ∧ P.cut n = edges[n - 1] + 1 := by
    intro n hn
    have hlt : n < P.endNode := hn.2
    have hpos := hn.1
    have h : n - 1 < edges.length := by omega
    have := hnode (n - 1) edges[n - 1] (List.getElem?_eq_getElem h)
    rw [Nat.sub_add_cancel hn.1] at this
    exact ⟨h, this, by rw [cut, this]⟩
  refine ⟨by rw [cut, hstart], by rw [cut, hfinish], by omega, fun n hn => ?_,
    fun m n hm hn hlt => ?_⟩
  · obtain ⟨h, hnode, hcut⟩ := hinterior n hn
    obtain ⟨hlt, hcall⟩ := hedges _ (List.getElem_mem h)
    rw [hcut]
    exact ⟨hnode, Nat.succ_pos _, hlt, hcall⟩
  · obtain ⟨h, -, hcut⟩ := hinterior m hm
    obtain ⟨h', -, hcut'⟩ := hinterior n hn
    have hm0 := hm.1
    rw [hcut, hcut']
    have := List.pairwise_iff_getElem.mp hsorted.pairwise (m - 1) (n - 1) h h' (by omega)
    omega

/-- The blocks of an interval lie between the cuts of its ends. -/
theorem blocks_eq (hlen : 3 ≤ P.pathBlocks.length) {I : Interval} (hI : I.Valid P) :
    I.blocks P = (P.pathBlocks.take (P.cut (I.dst P))).drop (P.cut I.src) := by
  obtain ⟨hstart, hend, -, hinterior, -⟩ := cut_spec P
  obtain ⟨-, -, -, -, hnode0, hnodeEnd, -⟩ := exists_edges P
  have hsucc : ∀ n, P.Interior n → P.cut n - 1 + 1 = P.cut n := fun n hn =>
    Nat.sub_add_cancel (hinterior n hn).2.1
  have hlast : P.pathBlocks.length - 2 + 1 = P.pathBlocks.length - 1 := by omega
  cases I with
  | interior i j =>
    obtain ⟨hi, hj, -⟩ := hI
    simp only [Interval.blocks, Interval.src, Interval.dst, getIntervalBlocks, (hinterior i hi).1,
      (hinterior j hj).1, hsucc j hj]
  | fromStart j =>
    simp only [Interval.blocks, Interval.src, Interval.dst, getIntervalBlocks, hnode0,
      (hinterior j hI).1, hsucc j hI, hstart]
  | toEnd i =>
    simp only [Interval.blocks, Interval.src, Interval.dst, getIntervalBlocks, hnodeEnd,
      (hinterior i hI).1, hend, hlast]
  | whole =>
    simp only [Interval.blocks, Interval.src, Interval.dst, getIntervalBlocks, hnode0, hnodeEnd,
      hstart, hend, hlast]

end Nodes

/-! ### Slices -/

/-- Two adjacent parts of a list. -/
private theorem drop_take_append {α : Type*} (l : List α) {a c z : ℕ} (hac : a ≤ c) (hcz : c ≤ z) :
    (l.take c).drop a ++ (l.take z).drop c = (l.take z).drop a := by
  have htake : l.take c = (l.take z).take c := by rw [List.take_take, min_eq_left hcz]
  rw [htake, List.drop_take, ← Nat.add_sub_cancel' hac, Nat.add_sub_cancel_left,
    ← List.drop_drop, List.take_append_drop]

/-- The parts of a list make up the list. -/
private theorem flatten_slices {α : Type*} (l : List α) {a z : ℕ} {cuts : List ℕ}
    (hsorted : (a :: cuts).IsChain (· ≤ ·)) (hz : ∀ c ∈ a :: cuts, c ≤ z) :
    (slices l a cuts z).flatten = (l.take z).drop a := by
  induction cuts generalizing a with
  | nil => simp [slices]
  | cons c cuts ih =>
    obtain ⟨hac, hrest⟩ := List.isChain_cons_cons.mp hsorted
    obtain ⟨-, hz⟩ := List.forall_mem_cons.mp hz
    rw [slices, List.flatten_cons, ih hrest hz]
    exact drop_take_append l hac (hz c List.mem_cons_self)

/-! ### Paths through the candidate edges -/

section Paths

variable {P : Problem} {tracker : VMAddressTracker}

/-- The intervals of a path: they were evaluated and meet their budgets. -/
private def Accepted (P : Problem) (tracker : VMAddressTracker)
    (intervals : List (Interval × Building)) : Prop :=
  ∀ p ∈ intervals, p ∈ (P.scan tracker).evaluated ∧ p.1.cost P p.2.2 < p.1.budget P

/-- A path that starts at the end is empty. -/
private theorem eq_nil_of_endNode {path : List RCGEdge} (hpath : ShortestPath.IsPath arcs
    (P.createReachableCheckpointGraph tracker).1 P.endNode P.endNode path) : path = [] := by
  cases path with
  | nil => rfl
  | cons e path =>
    obtain ⟨he, hsrc, -⟩ := hpath
    exact absurd hsrc (src_lt_dst he).2.ne

/-- Behind a candidate edge a path goes on through ascending candidate edges. -/
private theorem exists_after {i : ℕ} (hi : P.Interior i) {path : List RCGEdge}
    (hpath : ShortestPath.IsPath arcs (P.createReachableCheckpointGraph tracker).1 i P.endNode
      path) :
    ∃ (nodes : List ℕ) (intervals : List (Interval × Building)),
      (∀ n ∈ nodes, P.Interior n) ∧ (i :: nodes).IsChain (· < ·) ∧
      intervals.map Prod.fst = Interval.after i nodes ∧
      path = intervals.map (fun p => p.1.arc P p.2.2) ∧ Accepted P tracker intervals := by
  induction path generalizing i with
  | nil =>
    have heq : i = P.endNode := hpath
    have hlt : i < P.endNode := hi.2
    exact absurd heq hlt.ne
  | cons e path ih =>
    obtain ⟨he, hsrc, hrest⟩ := hpath
    obtain ⟨⟨I, b⟩, hp, hfits, rfl⟩ := mem_arcs_iff.mp he
    have hvalid := valid_of_mem_evaluated _ hp
    -- no arc into the start, so only two kinds of intervals go on
    cases I with
    | interior i' j =>
      obtain rfl : i' = i := hsrc
      obtain ⟨-, hj, hlt⟩ := hvalid
      obtain ⟨nodes, intervals, hnodes, hsorted, hmap, rfl, haccepted⟩ := ih hj hrest
      exact ⟨j :: nodes, (.interior i' j, b) :: intervals,
        List.forall_mem_cons.mpr ⟨hj, hnodes⟩, List.isChain_cons_cons.mpr ⟨hlt, hsorted⟩,
        by rw [List.map_cons, hmap]; rfl, rfl, List.forall_mem_cons.mpr ⟨⟨hp, hfits⟩, haccepted⟩⟩
    | toEnd i' =>
      obtain rfl : i' = i := hsrc
      obtain rfl := eq_nil_of_endNode hrest
      exact ⟨[], [(.toEnd i', b)], by simp, List.isChain_singleton _, rfl, rfl,
        List.forall_mem_cons.mpr ⟨⟨hp, hfits⟩, by simp⟩⟩
    | fromStart j => exact absurd hsrc hi.1.ne
    | whole => exact absurd hsrc hi.1.ne

/-- **A path from the start to the end** goes through ascending candidate edges. -/
private theorem exists_between {path : List RCGEdge} (hpath : P.IsStartToEnd tracker path) :
    ∃ (nodes : List ℕ) (intervals : List (Interval × Building)),
      (∀ n ∈ nodes, P.Interior n) ∧ nodes.IsChain (· < ·) ∧
      intervals.map Prod.fst = Interval.between nodes ∧
      path = intervals.map (fun p => p.1.arc P p.2.2) ∧ Accepted P tracker intervals := by
  obtain ⟨-, -, hpos, -, -⟩ := cut_spec P
  cases path with
  | nil => exact absurd hpath hpos.ne
  | cons e path =>
    obtain ⟨he, hsrc, hrest⟩ := hpath
    obtain ⟨⟨I, b⟩, hp, hfits, rfl⟩ := mem_arcs_iff.mp he
    have hvalid := valid_of_mem_evaluated _ hp
    cases I with
    | interior i j => exact absurd hsrc hvalid.1.1.ne'
    | toEnd i => exact absurd hsrc hvalid.1.ne'
    | fromStart j =>
      obtain ⟨nodes, intervals, hnodes, hsorted, hmap, rfl, haccepted⟩ := exists_after hvalid hrest
      exact ⟨j :: nodes, (.fromStart j, b) :: intervals,
        List.forall_mem_cons.mpr ⟨hvalid, hnodes⟩, hsorted, by rw [List.map_cons, hmap]; rfl, rfl,
        List.forall_mem_cons.mpr ⟨⟨hp, hfits⟩, haccepted⟩⟩
    | whole =>
      obtain rfl := eq_nil_of_endNode hrest
      exact ⟨[], [(.whole, b)], by simp, List.isChain_nil, rfl, rfl,
        List.forall_mem_cons.mpr ⟨⟨hp, hfits⟩, by simp⟩⟩

variable (hlen : 3 ≤ P.pathBlocks.length)
include hlen

/-- The blocks of the intervals of a path are the parts of the trace between the cuts. -/
private theorem map_blocks_after {i : ℕ} {nodes : List ℕ} (hi : P.Interior i)
    (hnodes : ∀ n ∈ nodes, P.Interior n) (hsorted : (i :: nodes).IsChain (· < ·)) :
    (Interval.after i nodes).map (Interval.blocks P) =
      slices P.pathBlocks (P.cut i) (nodes.map P.cut) (P.pathBlocks.length - 1) := by
  obtain ⟨-, hend, -, -, -⟩ := cut_spec P
  induction nodes generalizing i with
  | nil =>
    have hblocks := blocks_eq (I := .toEnd i) hlen hi
    rw [Interval.after, List.map_singleton, hblocks]
    simp only [Interval.src, Interval.dst, hend, List.map_nil, slices]
  | cons j nodes ih =>
    obtain ⟨hj, hnodes⟩ := List.forall_mem_cons.mp hnodes
    obtain ⟨hlt, hsorted⟩ := List.isChain_cons_cons.mp hsorted
    have hblocks := blocks_eq (I := .interior i j) hlen ⟨hi, hj, hlt⟩
    rw [Interval.after, List.map_cons, ih hj hnodes hsorted, hblocks]
    rfl

private theorem map_blocks_between {nodes : List ℕ} (hnodes : ∀ n ∈ nodes, P.Interior n)
    (hsorted : nodes.IsChain (· < ·)) : (Interval.between nodes).map (Interval.blocks P) =
      slices P.pathBlocks 1 (nodes.map P.cut) (P.pathBlocks.length - 1) := by
  obtain ⟨hstart, hend, -, -, -⟩ := cut_spec P
  cases nodes with
  | nil =>
    have hblocks := blocks_eq (I := .whole) hlen trivial
    rw [Interval.between, List.map_singleton, hblocks]
    simp only [Interval.src, Interval.dst, hstart, hend, List.map_nil, slices]
  | cons j nodes =>
    obtain ⟨hj, hnodes⟩ := List.forall_mem_cons.mp hnodes
    have hblocks := blocks_eq (I := .fromStart j) hlen hj
    rw [Interval.between, List.map_cons, map_blocks_after hlen hj hnodes hsorted, hblocks]
    simp only [Interval.src, Interval.dst, hstart, List.map_cons, slices]

omit hlen

private theorem checkpointAt_eq (P : Problem) :
    (∀ n, P.Interior n → P.checkpointAt n = some (P.edgeAt n)) ∧
      P.checkpointAt P.endNode = none := by
  obtain ⟨-, -, -, hinterior, -⟩ := cut_spec P
  obtain ⟨-, -, -, -, -, hnodeEnd, -⟩ := exists_edges P
  refine ⟨fun n hn => ?_, by rw [checkpointAt, hnodeEnd]⟩
  rw [checkpointAt, (hinterior n hn).1]
  rfl

/-- The checkpoints of a path are its candidate edges. -/
private theorem filterMap_checkpointAt {nodes : List ℕ} (hnodes : ∀ n ∈ nodes, P.Interior n) :
    (Interval.between nodes).filterMap (fun I => P.checkpointAt (I.dst P)) =
      nodes.map P.edgeAt := by
  obtain ⟨hinterior, hend⟩ := checkpointAt_eq P
  have hafter : ∀ {nodes : List ℕ}, (∀ n ∈ nodes, P.Interior n) → ∀ i,
      (Interval.after i nodes).filterMap (fun I => P.checkpointAt (I.dst P)) =
        nodes.map P.edgeAt := by
    intro nodes hnodes
    induction nodes with
    | nil => exact fun i => List.filterMap_cons_none hend
    | cons j nodes ih =>
      intro i
      obtain ⟨hj, hnodes⟩ := List.forall_mem_cons.mp hnodes
      rw [Interval.after, List.filterMap_cons, ih hnodes, List.map_cons]
      simp only [Interval.dst, hinterior j hj]
  cases nodes with
  | nil => exact List.filterMap_cons_none hend
  | cons j nodes =>
    obtain ⟨hj, hnodes⟩ := List.forall_mem_cons.mp hnodes
    rw [Interval.between, List.filterMap_cons, hafter hnodes, List.map_cons]
    simp only [Interval.dst, hinterior j hj]

end Paths

/-! ### The result -/

section Solve

variable {P : Problem} {tracker : VMAddressTracker}

/-- What is read off the intervals of a path. -/
private theorem resultOf_intervals {nodes : List ℕ} {intervals : List (Interval × Building)}
    (hnodes : ∀ n ∈ nodes, P.Interior n)
    (hmap : intervals.map Prod.fst = Interval.between nodes) :
    let result := P.resultOf (intervals.map fun p => p.1.arc P p.2.2)
    result.selectedCheckpoints = nodes.map P.edgeAt ∧
      result.intervalBlocks = intervals.map (fun p => p.1.blocks P) ∧
      result.allocations.map RegionAllocation.intervalEnergy =
        intervals.map (fun p => p.1.cost P p.2.2) := by
  refine ⟨?_, List.map_map, ?_⟩
  · rw [← filterMap_checkpointAt hnodes, ← hmap, resultOf, List.filterMap_map, List.filterMap_map]
    rfl
  · simp only [resultOf, List.map_map]
    rfl

private theorem length_after (i : ℕ) (nodes : List ℕ) :
    (Interval.after i nodes).length = nodes.length + 1 := by
  induction nodes generalizing i with
  | nil => rfl
  | cons j nodes ih => rw [Interval.after, List.length_cons, ih, List.length_cons]

/-- **One allocation for each interval, one checkpoint between two adjacent intervals.** -/
theorem solve_length {result : RCGResult} (h : (solve P tracker).1 = some result) :
    result.intervalBlocks.length = result.allocations.length ∧
      result.selectedCheckpoints.length + 1 = result.allocations.length := by
  obtain ⟨path, hpath, rfl, -⟩ := (solve_path P tracker).2.1 result h
  obtain ⟨nodes, intervals, hnodes, -, hmap, rfl, -⟩ := exists_between hpath
  obtain ⟨hselected, -, -⟩ := resultOf_intervals hnodes hmap
  have hlength : intervals.length = nodes.length + 1 := by
    rw [← List.length_map (f := Prod.fst), hmap]
    cases nodes with
    | nil => rfl
    | cons j nodes => rw [Interval.between, List.length_cons, length_after, List.length_cons]
  rw [hselected]
  simp [resultOf, hlength]

/-- **The solver is optimal.** A result partitions the trace and costs as little as the graph
allows; without a result the graph has no path from the start to the end. -/
theorem solve_isOptimal (P : Problem) (tracker : VMAddressTracker)
    (hlen : 3 ≤ P.pathBlocks.length) :
    (∀ result, (solve P tracker).1 = some result → IsOptimal P tracker result) ∧
      ((solve P tracker).1 = none → ∀ path, ¬P.IsStartToEnd tracker path) := by
  obtain ⟨-, hsome, hnone⟩ := solve_path P tracker
  refine ⟨fun result hresult => ?_, hnone⟩
  obtain ⟨path, hpath, rfl, hleast⟩ := hsome result hresult
  have htotal : (P.resultOf path).totalCost = ShortestPath.length arcs path := rfl
  obtain ⟨nodes, intervals, hnodes, hsorted, hmap, rfl, haccepted⟩ := exists_between hpath
  obtain ⟨hselected, hintervals, henergies⟩ := resultOf_intervals hnodes hmap
  obtain ⟨-, -, -, hinterior, hcuts⟩ := cut_spec P
  have hblocks : intervals.map (fun p => p.1.blocks P) =
      slices P.pathBlocks 1 (nodes.map P.cut) (P.pathBlocks.length - 1) := by
    rw [← map_blocks_between hlen hnodes hsorted, ← hmap, List.map_map]
    rfl
  have hchain : (nodes.map P.cut).IsChain (· < ·) := by
    refine (List.isChain_map _).mpr (hsorted.imp_of_mem_imp fun m n hm hn hlt => ?_)
    exact hcuts m n (hnodes m hm) (hnodes n hn) hlt
  have hflatten : (intervals.map (fun p => p.1.blocks P)).flatten =
      P.pathBlocks.tail.dropLast := by
    -- the cuts lie inside the trace, so the slices make it up
    have hbounds : ∀ c ∈ nodes.map P.cut, 1 ≤ c ∧ c ≤ P.pathBlocks.length - 1 := by
      intro c hc
      obtain ⟨n, hn, rfl⟩ := List.mem_map.mp hc
      obtain ⟨-, hpos, hlt, -⟩ := hinterior n (hnodes n hn)
      exact ⟨hpos, by omega⟩
    rw [hblocks, flatten_slices P.pathBlocks
      (List.isChain_cons.mpr ⟨fun c hc => (hbounds c (List.mem_of_mem_head? hc)).1,
        hchain.imp fun _ _ hlt => hlt.le⟩)
      (List.forall_mem_cons.mpr ⟨by omega, fun c hc => (hbounds c hc).2⟩)]
    rw [List.dropLast_eq_take, List.length_tail, List.drop_take, List.drop_one]
  refine ⟨?_, ⟨nodes, intervals, hnodes, hchain, hselected, hintervals.trans hblocks, hmap,
    hintervals, henergies, haccepted⟩, fun edge hedge => ?_, ⟨⟨_, hpath, htotal⟩, ?_⟩⟩
  · rw [hintervals, hflatten]
  · rw [hselected] at hedge
    obtain ⟨n, hn, rfl⟩ := List.mem_map.mp hedge
    exact (hinterior n (hnodes n hn)).2.2.2
  · rintro d ⟨path, hpath', rfl⟩
    exact hleast path hpath'

end Solve

/-- Three blocks that do not fit in one charge. -/
def threeBlocks : Problem :=
  { pathBlocks := [.startFunc, .real 0, .real 1, .real 2, .endFunc]
    solution := {}
    ctx :=
      { cfg := ⟨[0, 1, 2], [(0, 1), (1, 2)], fun _ => 200⟩
        state := ⟨[], fun _ _ => 0, fun _ _ => 0, fun _ _ => none, fun _ => 0, fun _ => false⟩
        params := ⟨500, 10, 10, 0, 0, 0, 0, 0, 0, 0, 0, 0, .stable⟩
        LI := ⟨[]⟩ } }

/-- The blocks are cut once. -/
theorem solve_isOptimal_threeBlocks :
    ∃ result, (solve threeBlocks {}).1 = some result ∧ result.selectedCheckpoints.length = 1 ∧
      IsOptimal threeBlocks {} result := by
  have hsome : ((solve threeBlocks {}).1.map fun result => result.selectedCheckpoints.length) =
      some 1 := by
    decide +kernel
  obtain ⟨result, hresult, hlength⟩ := Option.map_eq_some_iff.mp hsome
  exact ⟨result, hresult, hlength, (solve_isOptimal threeBlocks {} (by decide)).1 result hresult⟩

end RCGSolver

end Bao.Schematic
