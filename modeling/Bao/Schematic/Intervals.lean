import Bao.Schematic.RCGSolver
import Mathlib

/-!
# The intervals of a trace

`createReachableCheckpointGraph` evaluates four kinds of intervals, each with its own budget, and
leaves a row of intervals as soon as one of them misses its budget. Here the kinds are a type
(`Interval`) and the construction is told interval by interval: which ones are evaluated, each with
the arcs and the tracker it finds, and which ones are skipped (`scan`).

* The construction and the scan agree (`createReachableCheckpointGraph_eq_scan`).
* The arcs are the evaluated intervals that meet their budget (`mem_arcs_iff`).
-/

namespace Bao.Schematic

namespace RCGSolver

open Problem

/-- An interval between two candidate edges, from the start to a candidate edge, from a candidate
edge to the end, or the whole trace. Candidate edges are given by node positions. -/
inductive Interval
  | interior (i j : ℕ)
  | fromStart (j : ℕ)
  | toEnd (i : ℕ)
  | whole
deriving DecidableEq

namespace Problem

variable (P : Problem)

/-- The position of the end of the trace. -/
def endNode : ℕ := P.getCheckpointsFromTrace.length - 1

/-- The candidate edges. -/
def internalCkpts : List ℕ := (List.range P.endNode).tail

/-- A node between the two ends of the trace. -/
def Interior (n : ℕ) : Prop := 0 < n ∧ n < P.getCheckpointsFromTrace.length - 1

end Problem

namespace Interval

variable (P : Problem)

/-- The node where the interval starts. -/
def src : Interval → ℕ
  | interior i _ => i
  | fromStart _ => 0
  | toEnd i => i
  | whole => 0

/-- The node where the interval ends. -/
def dst : Interval → ℕ
  | interior _ j => j
  | fromStart j => j
  | toEnd _ => P.endNode
  | whole => P.endNode

/-- The allocation an interval that starts the trace has to agree with. -/
def startAlloc : Interval → Option RegionAllocation
  | interior _ _ => none
  | fromStart _ => P.startAlloc
  | toEnd _ => none
  | whole => P.startAlloc

/-- The allocation an interval that ends the trace has to agree with. -/
def endAlloc : Interval → Option RegionAllocation
  | interior _ _ => none
  | fromStart _ => none
  | toEnd _ => P.endAlloc
  | whole => P.endAlloc

/-- What the checkpoints of an interval cost. -/
def overhead : Interval → ℚ
  | interior _ _ => P.ctx.params.chkptRestore + P.ctx.params.chkptSave
  | fromStart _ => P.ctx.params.chkptSave
  | toEnd _ => P.ctx.params.chkptRestore
  | whole => 0

/-- The budget of a kind of interval: an interval is accepted if its cost is below it. -/
def budget : Interval → ℚ
  | interior _ _ => P.ctx.params.capacity
  | fromStart _ => P.energyLeft
  | toEnd _ => P.ctx.params.capacity - P.energyToLeave
  | whole => P.energyLeft - P.energyToLeave

/-- The ends of an interval are candidate edges of the trace, in order. -/
def Valid : Interval → Prop
  | interior i j => P.Interior i ∧ P.Interior j ∧ i < j
  | fromStart j => P.Interior j
  | toEnd i => P.Interior i
  | whole => True

variable (I : Interval)

/-- The blocks of the interval. -/
def blocks : List Block := P.getIntervalBlocks (P.nodeAt I.src) (P.nodeAt (I.dst P))

/-- The allocation and the cost of the interval at a state of the tracker, and the tracker
after. -/
def evaluate (tracker : VMAddressTracker) : (RegionAllocation × ℚ) × VMAddressTracker :=
  let ((alloc, cost), tracker) := computeCost P.solution P.ctx (I.blocks P) (I.startAlloc P)
    (I.endAlloc P) tracker
  ((alloc, cost + I.overhead P), tracker)

/-- The cost of the interval at a state of the tracker. -/
def cost (tracker : VMAddressTracker) : ℚ := (I.evaluate P tracker).1.2

/-- The arc of the interval at a state of the tracker. -/
def arc (tracker : VMAddressTracker) : RCGEdge :=
  ⟨I.src, I.dst P, I.cost P tracker,
    { (I.evaluate P tracker).1.1 with intervalEnergy := I.cost P tracker }, I.blocks P⟩

/-- The arcs and the tracker after the interval was evaluated. -/
def record (b : Building) : Building :=
  (if I.cost P b.2 < I.budget P then b.1 ++ [I.arc P b.2] else b.1, (I.evaluate P b.2).2)

variable {P I}

/-- Only an interval from the start has to agree with the start. -/
theorem startAlloc_eq : ∀ a ∈ I.startAlloc P, P.startAlloc = some a := by
  cases I <;> simp [startAlloc]

/-- Only an interval to the end has to agree with the end. -/
theorem endAlloc_eq : ∀ a ∈ I.endAlloc P, P.endAlloc = some a := by
  cases I <;> simp [endAlloc]

theorem mem_record {b : Building} {e : RCGEdge} (h : e ∈ (I.record P b).1) :
    e ∈ b.1 ∨ e = I.arc P b.2 := by
  rw [record] at h
  split_ifs at h
  · exact (List.mem_append.mp h).imp_right List.mem_singleton.mp
  · exact .inl h

end Interval

/-- A row that was left early: the last interval that was evaluated, with the arcs and the tracker
found, the intervals that were skipped, and the arcs and the tracker of that moment. -/
structure Break where
  last : Option (Interval × Building)
  skipped : List Interval
  building : Building

/-- What the construction did: the intervals it evaluated, each with the arcs and the tracker it
found, the rows it left early, and the arcs and the tracker it ended with. -/
structure Scan where
  evaluated : List (Interval × Building)
  breaks : List Break
  building : Building

/-- Leaves a row. -/
def Scan.leave (s : Scan) (last : Option (Interval × Building)) (skipped : List Interval) : Scan :=
  { s with breaks := s.breaks ++ [⟨last, skipped, s.building⟩] }

namespace Problem

variable (P : Problem)

/-- Evaluates one interval. -/
def scanInterval (s : Scan) (I : Interval) : Scan :=
  { s with
    evaluated := s.evaluated ++ [(I, s.building)]
    building := I.record P s.building }

/-- The cost a row is left by: that of the interval evaluated last, at first 0. -/
def prevCost (last : Option (Interval × Building)) : ℚ :=
  match last with
  | some (I, b) => I.cost P b.2
  | none => 0

/-- Evaluates a row of intervals of one kind, up to the first whose predecessor missed the
budget. -/
def scanRow : Option (Interval × Building) → List Interval → Scan → Scan
  | _, [], s => s
  | last, I :: row, s =>
    if I.budget P ≤ P.prevCost last then s.leave last (I :: row)
    else scanRow (some (I, s.building)) row (P.scanInterval s I)

/-- The rows, in the order in which they are evaluated. -/
def rows : List (List Interval) :=
  (P.internalCkpts.map fun i => (P.internalCkpts.filter fun j => i < j).map (.interior i)) ++
    [P.internalCkpts.map .fromStart, P.internalCkpts.reverse.map .toEnd]

/-- The whole construction: the rows, then the whole trace. -/
def scan (tracker : VMAddressTracker) : Scan :=
  P.scanInterval (P.rows.foldl (fun s row => P.scanRow none row s) ⟨[], [], ([], tracker)⟩) .whole

end Problem

/-! ### The construction and the scan -/

section Agree

variable {P : Problem}

/-- One interval, tried with the test of its kind. -/
private theorem tryInterval_eq {I : Interval} {fits : ℚ → Bool}
    (hfits : ∀ cost, fits cost = true ↔ cost < I.budget P) (b : Building) :
    P.tryInterval I.src (I.dst P) (I.startAlloc P) (I.endAlloc P) (I.overhead P) fits b =
      (I.cost P b.2, I.record P b) := by
  have hcost : I.cost P b.2 = (computeCost P.solution P.ctx (I.blocks P) (I.startAlloc P)
      (I.endAlloc P) b.2).1.2 + I.overhead P := rfl
  rw [tryInterval, Interval.record]
  by_cases hlt : I.cost P b.2 < I.budget P
  · have := (hfits _).mpr hlt
    rw [hcost] at this
    simp only [Interval.blocks] at this
    rw [if_pos hlt]
    simp only [this, if_true]
    rfl
  · have : fits (I.cost P b.2) = false := by
      rw [Bool.eq_false_iff]
      exact fun h => hlt ((hfits _).mp h)
    rw [hcost] at this
    simp only [Interval.blocks] at this
    rw [if_neg hlt]
    simp only [this]
    rfl

/-- A row of the construction. -/
private theorem tryRow_eq (mk : ℕ → Interval) {stop : ℚ → Bool} {try_ : ℕ → Building → ℚ × Building}
    {row : List ℕ} (hstop : ∀ n ∈ row, ∀ cost, stop cost = true ↔ (mk n).budget P ≤ cost)
    (htry : ∀ n ∈ row, ∀ b : Building, try_ n b = ((mk n).cost P b.2, (mk n).record P b))
    (last : Option (Interval × Building)) (s : Scan) :
    tryRow stop try_ (P.prevCost last) row s.building =
      (P.scanRow last (row.map mk) s).building := by
  induction row generalizing last s with
  | nil => rfl
  | cons n row ih =>
    obtain ⟨hstopn, hstoprow⟩ := List.forall_mem_cons.mp hstop
    obtain ⟨htryn, htryrow⟩ := List.forall_mem_cons.mp htry
    rw [tryRow, List.map_cons, scanRow]
    by_cases h : (mk n).budget P ≤ P.prevCost last
    · rw [if_pos ((hstopn _).mpr h), if_pos h]
      rfl
    · rw [if_neg (by rwa [hstopn]), if_neg h, htryn]
      exact ih hstoprow htryrow (some (mk n, s.building)) (P.scanInterval s (mk n))

/-- **The construction is the scan.** -/
theorem createReachableCheckpointGraph_eq_scan (tracker : VMAddressTracker) :
    P.createReachableCheckpointGraph tracker = (P.scan tracker).building := by
  -- loop 1: one row for every first checkpoint
  have hinterior : ∀ (l : List ℕ) (s : Scan), l.foldl (fun b i =>
      tryRow (fun prevCost => decide (P.ctx.params.capacity ≤ prevCost))
        (fun j => P.tryInterval i j none none (P.ctx.params.chkptRestore + P.ctx.params.chkptSave)
          fun cost => decide (cost < P.ctx.params.capacity))
        0 (P.internalCkpts.filter fun j => i < j) b) s.building =
      ((l.map fun i => (P.internalCkpts.filter fun j => i < j).map (Interval.interior i)).foldl
        (fun s row => P.scanRow none row s) s).building := by
    intro l
    induction l with
    | nil => exact fun _ => rfl
    | cons i l ih =>
      intro s
      rw [List.foldl_cons, List.map_cons, List.foldl_cons, ← ih]
      congr 1
      exact tryRow_eq (.interior i) (by simp [Interval.budget])
        (fun j _ b => tryInterval_eq (I := .interior i j) (by simp [Interval.budget]) b) none s
  -- loop 2, from the start
  have hfromStart : ∀ s : Scan, tryRow (fun prevCost => decide (P.energyLeft ≤ prevCost))
      (fun j => P.tryInterval 0 j P.startAlloc none P.ctx.params.chkptSave
        fun cost => decide (cost < P.energyLeft)) 0 P.internalCkpts s.building =
      (P.scanRow none (P.internalCkpts.map .fromStart) s).building := fun s =>
    tryRow_eq .fromStart (by simp [Interval.budget])
      (fun j _ b => tryInterval_eq (I := .fromStart j) (by simp [Interval.budget]) b) none s
  -- loop 3, to the end, scanned backwards
  have htoEnd : ∀ s : Scan,
      tryRow (fun prevCost => decide (P.ctx.params.capacity ≤ prevCost + P.energyToLeave))
        (fun i => P.tryInterval i P.endNode none P.endAlloc P.ctx.params.chkptRestore
          fun cost => decide (cost + P.energyToLeave < P.ctx.params.capacity))
        0 P.internalCkpts.reverse s.building =
      (P.scanRow none (P.internalCkpts.reverse.map .toEnd) s).building := fun s =>
    tryRow_eq .toEnd (by simp [Interval.budget]) (fun i _ b => tryInterval_eq (I := .toEnd i)
      (by simp [Interval.budget, lt_sub_iff_add_lt]) b) none s
  -- the trace as one interval
  have hwhole : ∀ b, P.tryInterval 0 P.endNode P.startAlloc P.endAlloc 0
      (fun cost => decide (cost + P.energyToLeave < P.energyLeft)) b =
      (Interval.whole.cost P b.2, Interval.whole.record P b) := fun b =>
    tryInterval_eq (I := .whole) (by simp [Interval.budget, lt_sub_iff_add_lt]) b
  rw [scan, rows, List.foldl_append, List.foldl_cons, List.foldl_cons, List.foldl_nil]
  refine Eq.trans (congrArg Prod.snd (hwhole _)) (congrArg (Interval.whole.record P) ?_)
  refine Eq.trans (congrArg (tryRow _ _ 0 _) ?_) (htoEnd _)
  refine Eq.trans (congrArg (tryRow _ _ 0 _) ?_) (hfromStart _)
  exact hinterior P.internalCkpts ⟨[], [], ([], tracker)⟩

/-! ### What is evaluated -/

/-- The candidate edges lie between the two ends of the trace. -/
theorem mem_internalCkpts {n : ℕ} : n ∈ P.internalCkpts ↔ P.Interior n := by
  rw [internalCkpts, List.tail_range, List.mem_range'_1]
  exact ⟨fun h => ⟨h.1, show n < P.endNode by omega⟩, fun h => ⟨h.1, by
    have : n < P.endNode := h.2
    omega⟩⟩

/-- The rows consist of valid intervals. -/
theorem valid_of_mem_rows {row : List Interval} (hrow : row ∈ P.rows) {I : Interval}
    (hI : I ∈ row) : I.Valid P := by
  rcases List.mem_append.mp hrow with h | h
  · obtain ⟨i, hi, rfl⟩ := List.mem_map.mp h
    obtain ⟨j, hj, rfl⟩ := List.mem_map.mp hI
    obtain ⟨hj, hlt⟩ := List.mem_filter.mp hj
    exact ⟨mem_internalCkpts.mp hi, mem_internalCkpts.mp hj, of_decide_eq_true hlt⟩
  · rcases List.mem_cons.mp h with rfl | h
    · obtain ⟨j, hj, rfl⟩ := List.mem_map.mp hI
      exact mem_internalCkpts.mp hj
    · obtain rfl := List.mem_singleton.mp h
      obtain ⟨i, hi, rfl⟩ := List.mem_map.mp hI
      exact mem_internalCkpts.mp (List.mem_reverse.mp hi)

/-- Every valid interval but the whole trace is in a row. -/
theorem exists_row {I : Interval} (hI : I.Valid P) : I = .whole ∨ ∃ row ∈ P.rows, I ∈ row := by
  cases I with
  | interior i j =>
    obtain ⟨hi, hj, hlt⟩ := hI
    exact .inr ⟨_, List.mem_append_left _ (List.mem_map.mpr ⟨i, mem_internalCkpts.mpr hi, rfl⟩),
      List.mem_map.mpr ⟨j, List.mem_filter.mpr ⟨mem_internalCkpts.mpr hj, decide_eq_true hlt⟩,
        rfl⟩⟩
  | fromStart j =>
    exact .inr ⟨_, List.mem_append_right _ (List.mem_cons_self ..),
      List.mem_map.mpr ⟨j, mem_internalCkpts.mpr hI, rfl⟩⟩
  | toEnd i =>
    exact .inr ⟨_, List.mem_append_right _ (List.mem_cons_of_mem _ (List.mem_singleton_self _)),
      List.mem_map.mpr ⟨i, List.mem_reverse.mpr (mem_internalCkpts.mpr hI), rfl⟩⟩
  | whole => exact .inl rfl

/-- A kind of interval has one budget. -/
theorem budget_eq {row : List Interval} (hrow : row ∈ P.rows) {I J : Interval} (hI : I ∈ row)
    (hJ : J ∈ row) : I.budget P = J.budget P := by
  rcases List.mem_append.mp hrow with h | h
  · obtain ⟨i, -, rfl⟩ := List.mem_map.mp h
    obtain ⟨j, -, rfl⟩ := List.mem_map.mp hI
    obtain ⟨j', -, rfl⟩ := List.mem_map.mp hJ
    rfl
  · rcases List.mem_pair.mp h with rfl | rfl
    all_goals
      obtain ⟨j, -, rfl⟩ := List.mem_map.mp hI
      obtain ⟨j', -, rfl⟩ := List.mem_map.mp hJ
      rfl

/-- **An invariant of the scan**: evaluating a valid interval keeps it, and so does leaving a
row. -/
theorem scan_invariant {J : Scan → Prop} {tracker : VMAddressTracker}
    (hinit : J ⟨[], [], ([], tracker)⟩)
    (heval : ∀ s I, I.Valid P → J s → J (P.scanInterval s I))
    (hleave : ∀ (s : Scan) last (row : List Interval), (∀ I ∈ row, I.Valid P) → J s →
      J (s.leave last row)) :
    J (P.scan tracker) := by
  have hrow : ∀ (row : List Interval), (∀ I ∈ row, I.Valid P) → ∀ last s, J s →
      J (P.scanRow last row s) := by
    intro row
    induction row with
    | nil => exact fun _ _ _ hs => hs
    | cons I row ih =>
      intro hvalid last s hs
      rw [scanRow]
      split_ifs
      · exact hleave s _ _ hvalid hs
      · obtain ⟨hI, hrest⟩ := List.forall_mem_cons.mp hvalid
        exact ih hrest _ _ (heval s I hI hs)
  refine heval _ _ trivial (List.foldlRecOn (motive := J) _ _ hinit fun s hs row hmem => ?_)
  exact hrow row (fun I hI => valid_of_mem_rows hmem hI) none s hs

/-- **An invariant of the graph under construction**: it holds at the end if every interval that is
evaluated keeps it. -/
theorem createReachableCheckpointGraph_invariant {J : Building → Prop} {tracker : VMAddressTracker}
    (hinit : J ([], tracker)) (hrecord : ∀ (I : Interval) b, I.Valid P → J b → J (I.record P b)) :
    J (P.createReachableCheckpointGraph tracker) := by
  rw [createReachableCheckpointGraph_eq_scan]
  exact scan_invariant (J := fun s => J s.building) hinit
    (fun s I hI hs => hrecord I s.building hI hs) fun _ _ _ _ hs => hs

/-- Only valid intervals are evaluated. -/
theorem valid_of_mem_evaluated {tracker : VMAddressTracker} :
    ∀ p ∈ (P.scan tracker).evaluated, p.1.Valid P := by
  refine scan_invariant (J := fun s => ∀ p ∈ s.evaluated, p.1.Valid P) (by simp) ?_
    fun s _ row _ hs => hs
  intro s I hI hs p hp
  rcases List.mem_append.mp hp with hp | hp
  · exact hs p hp
  · rw [List.mem_singleton.mp hp]
    exact hI

/-- **The arcs**: the evaluated intervals that meet their budget. -/
theorem mem_arcs_iff {tracker : VMAddressTracker} {e : RCGEdge} :
    e ∈ (P.createReachableCheckpointGraph tracker).1 ↔
      ∃ p ∈ (P.scan tracker).evaluated, p.1.cost P p.2.2 < p.1.budget P ∧ e = p.1.arc P p.2.2 := by
  rw [createReachableCheckpointGraph_eq_scan]
  revert e
  refine scan_invariant (J := fun s => ∀ {e}, e ∈ s.building.1 ↔
    ∃ p ∈ s.evaluated, p.1.cost P p.2.2 < p.1.budget P ∧ e = p.1.arc P p.2.2) (by simp) ?_
    fun s _ row _ hs => hs
  intro s I _ hs e
  simp only [scanInterval, Interval.record, List.mem_append, List.mem_singleton, or_and_right,
    exists_or, exists_eq_left, ← hs]
  by_cases hlt : I.cost P s.building.2 < I.budget P
  · simp [hlt]
  · simp [hlt]

/-! ### Rows that are left early -/

/-- What was evaluated stays, and so do the rows that were left. -/
private theorem scanRow_mono (last : Option (Interval × Building)) (row : List Interval)
    (s : Scan) :
    s.evaluated ⊆ (P.scanRow last row s).evaluated ∧ s.breaks ⊆ (P.scanRow last row s).breaks := by
  induction row generalizing last s with
  | nil => exact ⟨List.Subset.refl _, List.Subset.refl _⟩
  | cons I row ih =>
    rw [scanRow]
    split_ifs
    · exact ⟨List.Subset.refl _, List.subset_append_left _ _⟩
    · obtain ⟨hevaluated, hbreaks⟩ := ih (some (I, s.building)) (P.scanInterval s I)
      exact ⟨fun p hp => hevaluated (List.mem_append_left _ hp), hbreaks⟩

section Invariant

variable {J : Building → Prop}

/-- What is known of a row that was left: it was left at its start, or behind an interval of the row
that missed the budget. -/
def Break.Sound (P : Problem) (J : Building → Prop) (row : List Interval) (B : Break) : Prop :=
  J B.building ∧ ∀ I ∈ B.skipped, I ∈ row ∧ match B.last with
    | none => I.budget P ≤ 0
    | some (L, b) => J b ∧ B.building = L.record P b ∧ L.budget P ≤ L.cost P b.2 ∧
      [L, I].Sublist row

/-- One row keeps what is known of the rows that were left. -/
private theorem scanRow_breaks (hrecord : ∀ (I : Interval) b, I.Valid P → J b → J (I.record P b))
    {row : List Interval} (hrow : row ∈ P.rows) (pre : List Interval) {rest : List Interval}
    (hsplit : pre ++ rest = row) {last : Option (Interval × Building)} {s : Scan}
    (hlast : ∀ L b, last = some (L, b) → L ∈ pre ∧ J b ∧ s.building = L.record P b)
    (hs : J s.building) (hbreaks : ∀ B ∈ s.breaks, ∃ row ∈ P.rows, B.Sound P J row) :
    J (P.scanRow last rest s).building ∧
      ∀ B ∈ (P.scanRow last rest s).breaks, ∃ row ∈ P.rows, B.Sound P J row := by
  induction rest generalizing pre last s with
  | nil => exact ⟨hs, hbreaks⟩
  | cons K rest ih =>
    have hmem : ∀ I ∈ K :: rest, I ∈ row := fun I hI => hsplit ▸ List.mem_append_right _ hI
    have hK := hmem K (List.mem_cons_self ..)
    rw [scanRow]
    split_ifs with hleave
    · -- the row is left before `K`: `K` and all that follow are skipped
      refine ⟨hs, fun B hB => (List.mem_append.mp hB).elim (hbreaks B) fun hB => ?_⟩
      obtain rfl := List.mem_singleton.mp hB
      refine ⟨row, hrow, hs, fun I hI => ⟨hmem I hI, ?_⟩⟩
      cases last with
      | none => exact (budget_eq hrow (hmem I hI) hK).trans_le hleave
      | some p =>
        obtain ⟨hL, hb, hbuilding⟩ := hlast p.1 p.2 rfl
        have hLrow : p.1 ∈ row := hsplit ▸ List.mem_append_left _ hL
        refine ⟨hb, hbuilding, (budget_eq hrow hLrow hK).trans_le hleave, ?_⟩
        rw [← hsplit]
        exact (List.singleton_sublist.mpr hL).append (List.singleton_sublist.mpr hI)
    · refine ih (pre ++ [K]) (by rw [← hsplit, List.append_assoc]; rfl) ?_
        (hrecord K _ (valid_of_mem_rows hrow hK) hs) hbreaks
      intro L b hL
      obtain ⟨rfl, rfl⟩ := Prod.mk.inj (Option.some.inj hL)
      exact ⟨by simp, hs, rfl⟩

/-- The rows that are walked: what is known of the building and of the rows that were left. -/
private theorem foldl_scanRow (hrecord : ∀ (I : Interval) b, I.Valid P → J b → J (I.record P b))
    (rows : List (List Interval)) (hrows : ∀ row ∈ rows, row ∈ P.rows) {s : Scan}
    (hs : J s.building) (hbreaks : ∀ B ∈ s.breaks, ∃ row ∈ P.rows, B.Sound P J row) :
    J (rows.foldl (fun s row => P.scanRow none row s) s).building ∧
      ∀ B ∈ (rows.foldl (fun s row => P.scanRow none row s) s).breaks,
        ∃ row ∈ P.rows, B.Sound P J row := by
  refine List.foldlRecOn (motive := fun s : Scan => J s.building ∧
    ∀ B ∈ s.breaks, ∃ row ∈ P.rows, B.Sound P J row) rows _ ⟨hs, hbreaks⟩ ?_
  exact fun t ht row hrow => scanRow_breaks hrecord (hrows row hrow) [] rfl (by simp)
    ht.1 ht.2

/-- **The rows that are left early.** -/
theorem sound_of_mem_breaks {tracker : VMAddressTracker} (hinit : J ([], tracker))
    (hrecord : ∀ (I : Interval) b, I.Valid P → J b → J (I.record P b)) :
    ∀ B ∈ (P.scan tracker).breaks, ∃ row ∈ P.rows, B.Sound P J row :=
  (foldl_scanRow hrecord P.rows (fun _ h => h) hinit (by simp)).2

/-- An interval of a row is skipped, or evaluated when all earlier ones met the budget. -/
private theorem scanRow_cases (hrecord : ∀ (I : Interval) b, I.Valid P → J b → J (I.record P b))
    {row : List Interval} (hrow : row ∈ P.rows) {rest : List Interval} (hrest : rest ⊆ row)
    (last : Option (Interval × Building)) {s : Scan} (hs : J s.building) {I : Interval}
    (hI : I ∈ rest) :
    (∃ B ∈ (P.scanRow last rest s).breaks, I ∈ B.skipped) ∨
      (∃ b, J b ∧ (I, b) ∈ (P.scanRow last rest s).evaluated) ∧ P.prevCost last < I.budget P ∧
        ∀ L, [L, I].Sublist rest → ∃ b, J b ∧ L.cost P b.2 < L.budget P := by
  induction rest generalizing last s with
  | nil => cases hI
  | cons K rest ih =>
    obtain ⟨hK, hrest⟩ := List.cons_subset.mp hrest
    rw [scanRow]
    split_ifs with hleave
    · exact .inl ⟨_, List.mem_append_right _ (List.mem_singleton_self _), hI⟩
    · by_cases hlater : I ∈ rest
      · refine (ih hrest _ (hrecord K _ (valid_of_mem_rows hrow hK) hs) hlater).imp_right ?_
        rintro ⟨hevaluated, hfits, hearlier⟩
        have hbudget := budget_eq hrow hK (hrest hlater)
        refine ⟨hevaluated, hbudget ▸ not_le.mp hleave, fun L hL => ?_⟩
        rcases List.sublist_cons_iff.mp hL with hL | ⟨l, hl, -⟩
        · exact hearlier L hL
        · obtain ⟨rfl, -⟩ := List.cons.inj hl
          exact ⟨s.building, hs, hbudget ▸ hfits⟩
      · obtain rfl := (List.mem_cons.mp hI).resolve_right hlater
        refine .inr ⟨⟨s.building, hs, (scanRow_mono _ _ _).1 ?_⟩, not_le.mp hleave, fun L hL => ?_⟩
        · exact List.mem_append_right _ (List.mem_singleton_self _)
        · -- nothing of the row comes before its first interval
          rcases List.sublist_cons_iff.mp hL with hL | ⟨l, hl, hL⟩
          · exact absurd (hL.subset (by simp)) hlater
          · obtain ⟨rfl, rfl⟩ := List.cons.inj hl
            exact absurd (List.singleton_sublist.mp hL) hlater

/-- **The intervals of a row** are evaluated in their order until one is skipped with all that
follow. -/
theorem row_cases {tracker : VMAddressTracker} (hinit : J ([], tracker))
    (hrecord : ∀ (I : Interval) b, I.Valid P → J b → J (I.record P b)) {row : List Interval}
    (hrow : row ∈ P.rows) {I : Interval} (hI : I ∈ row) :
    (∃ B ∈ (P.scan tracker).breaks, I ∈ B.skipped) ∨
      (∃ b, J b ∧ (I, b) ∈ (P.scan tracker).evaluated) ∧ 0 < I.budget P ∧
        ∀ L, [L, I].Sublist row → ∃ b, J b ∧ L.cost P b.2 < L.budget P := by
  obtain ⟨before, after, hrows⟩ := List.append_of_mem hrow
  have hscan : P.scan tracker = P.scanInterval (after.foldl (fun s row => P.scanRow none row s)
      (P.scanRow none row (before.foldl (fun s row => P.scanRow none row s)
        ⟨[], [], ([], tracker)⟩))) .whole := by
    rw [scan, hrows, List.foldl_append, List.foldl_cons]
  have hbefore := (foldl_scanRow hrecord before
    (fun r hr => hrows ▸ List.mem_append_left _ hr) (s := ⟨[], [], ([], tracker)⟩) hinit
    (by simp)).1
  -- the rows behind this one only add to what was evaluated and left
  have hafter : ∀ s : Scan,
      s.evaluated ⊆ (after.foldl (fun s row => P.scanRow none row s) s).evaluated ∧
      s.breaks ⊆ (after.foldl (fun s row => P.scanRow none row s) s).breaks := fun s =>
    List.foldlRecOn (motive := fun t : Scan => s.evaluated ⊆ t.evaluated ∧ s.breaks ⊆ t.breaks)
      after _ ⟨List.Subset.refl _, List.Subset.refl _⟩ fun t ht row _ =>
        ⟨fun p hp => (scanRow_mono none row t).1 (ht.1 hp),
          fun B hB => (scanRow_mono none row t).2 (ht.2 hB)⟩
  rw [hscan]
  refine (scanRow_cases hrecord hrow (List.Subset.refl row) none hbefore hI).imp ?_ ?_
  · rintro ⟨B, hB, hskipped⟩
    exact ⟨B, (hafter _).2 hB, hskipped⟩
  · rintro ⟨⟨b, hb, hevaluated⟩, hbudget, hearlier⟩
    exact ⟨⟨b, hb, List.mem_append_left _ ((hafter _).1 hevaluated)⟩, hbudget, hearlier⟩

/-- **Every valid interval** but the whole trace is skipped or evaluated, and the whole trace is
evaluated. -/
theorem skipped_or_evaluated (tracker : VMAddressTracker) {I : Interval} (hI : I.Valid P) :
    (∃ B ∈ (P.scan tracker).breaks, I ∈ B.skipped) ∨ ∃ b, (I, b) ∈ (P.scan tracker).evaluated := by
  rcases exists_row hI with rfl | ⟨row, hrow, hmem⟩
  · exact .inr ⟨_, List.mem_append_right _ (List.mem_singleton_self _)⟩
  · refine (row_cases (J := fun _ => True) trivial (fun _ _ _ _ => trivial) hrow hmem).imp_right ?_
    rintro ⟨⟨b, -, hevaluated⟩, -⟩
    exact ⟨b, hevaluated⟩

end Invariant

end Agree

end RCGSolver

end Bao.Schematic
