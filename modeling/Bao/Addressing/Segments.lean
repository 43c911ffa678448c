import Mathlib

/-!
# Segments of a line

Points on a line, sorted, each with a value, cut it into segments: a point reaches up to the next
one, and the last point up to a given end. The value at a place is then the value of the last point
at or before it (`inForce`), and exactly one segment contains the place (`segments_containing`).
-/

namespace Bao.Addressing

variable {α : Type*}

/-- A segment `[start, stop)` with its value. -/
structure Segment (α : Type*) where
  start : ℕ
  stop : ℕ
  value : α

/-- The segment contains a place. -/
def Segment.Contains (s : Segment α) (a : ℕ) : Prop := s.start ≤ a ∧ a < s.stop

instance (s : Segment α) (a : ℕ) : Decidable (s.Contains a) := inferInstanceAs (Decidable (_ ∧ _))

theorem Segment.contains_iff {s : Segment α} {a : ℕ} :
    (decide (s.Contains a) = true) ↔ s.start ≤ a ∧ a < s.stop := decide_eq_true_iff

/-- The segments between points, the last one up to `stop`. -/
def segments (stop : ℕ) : List (ℕ × α) → List (Segment α)
  | [] => []
  | [p] => [⟨p.1, stop, p.2⟩]
  | p :: q :: rest => ⟨p.1, q.1, p.2⟩ :: segments stop (q :: rest)

/-- The last point at or before a place. -/
def inForce (a : ℕ) (points : List (ℕ × α)) : Option (ℕ × α) :=
  (points.filter fun p => p.1 ≤ a).getLast?

/-- Each point has one segment. -/
theorem map_value_segments (stop : ℕ) (points : List (ℕ × α)) :
    (segments stop points).map Segment.value = points.map Prod.snd := by
  induction points with
  | nil => rfl
  | cons p points ih =>
    cases points with
    | nil => rfl
    | cons q rest => rw [segments, List.map_cons, ih, List.map_cons (a := p)]

/-- Points are sorted by their places. -/
def SortedPoints (points : List (ℕ × α)) : Prop := points.Pairwise fun p q => p.1 ≤ q.1

/-- The point in force is the last one at or before the place. -/
theorem inForce_spec {a : ℕ} {points : List (ℕ × α)} {p : ℕ × α} (hsorted : SortedPoints points)
    (h : inForce a points = some p) :
    p ∈ points ∧ p.1 ≤ a ∧ ∀ q ∈ points, q.1 ≤ a → q.1 ≤ p.1 := by
  have hmem := List.mem_of_getLast? h
  rw [List.mem_filter, decide_eq_true_eq] at hmem
  refine ⟨hmem.1, hmem.2, fun q hq hqa => ?_⟩
  obtain ⟨init, hinit⟩ := List.getLast?_eq_some_iff.mp h
  have hfilter : q ∈ init ++ [p] := hinit ▸ List.mem_filter.mpr ⟨hq, by simpa using hqa⟩
  have hpair : SortedPoints (init ++ [p]) := hinit ▸ hsorted.filter _
  rcases List.mem_append.mp hfilter with hq | hq
  · exact (List.pairwise_append.mp hpair).2.2 q hq p (by simp)
  · exact (congrArg Prod.fst (List.mem_singleton.mp hq)).le

theorem exists_inForce {a : ℕ} {points : List (ℕ × α)} {p : ℕ × α} (hp : p ∈ points)
    (hpa : p.1 ≤ a) :
    ∃ q, inForce a points = some q := by
  refine Option.isSome_iff_exists.mp ?_
  rw [inForce, List.getLast?_isSome]
  exact List.ne_nil_of_mem (List.mem_filter.mpr ⟨hp, by simpa using hpa⟩)

/-- The points before a place that are not there yet do not matter. -/
private theorem segments_containing_of_lt {stop a : ℕ} {points : List (ℕ × α)}
    (h : ∀ p ∈ points, a < p.1) : (segments stop points).filter (fun s => s.Contains a) = [] := by
  induction points with
  | nil => rfl
  | cons p points ih =>
    have hp := h p (by simp)
    cases points with
    | nil =>
      rw [segments, List.filter_cons_of_neg (by rw [Segment.contains_iff]; dsimp only; omega),
        List.filter_nil]
    | cons q rest =>
      rw [segments, List.filter_cons_of_neg (by rw [Segment.contains_iff]; dsimp only; omega)]
      exact ih fun r hr => h r (by simp [hr])

/-- **One segment contains a place**, and it has the value in force there. -/
theorem segments_containing {stop a : ℕ} {points : List (ℕ × α)} (hsorted : SortedPoints points)
    (ha : a < stop) :
    ((segments stop points).filter fun s => s.Contains a).map (fun s => (s.start, s.value)) =
      (inForce a points).toList := by
  induction points with
  | nil => rfl
  | cons p points ih =>
    cases points with
    | nil =>
      by_cases hp : p.1 ≤ a
      · simp [segments, inForce, Segment.Contains, hp, ha]
      · simp [segments, inForce, Segment.Contains, hp]
    | cons q rest =>
      obtain ⟨hfirst, hrest⟩ := List.pairwise_cons.mp hsorted
      by_cases hq : q.1 ≤ a
      · -- the first segment ends before the place
        have hlast : inForce a (p :: q :: rest) = inForce a (q :: rest) := by
          have hp : p.1 ≤ a := le_trans (hfirst q (by simp)) hq
          simp [inForce, hp, hq]
        rw [segments, List.filter_cons_of_neg (by rw [Segment.contains_iff]; dsimp only; omega),
          ih hrest, hlast]
      · -- the place is in the first segment or before it
        have hafter : ∀ r ∈ q :: rest, a < r.1 := by
          intro r hr
          rcases List.mem_cons.mp hr with rfl | hr
          · omega
          · have hqr : q.1 ≤ r.1 := (List.pairwise_cons.mp hrest).1 r hr
            omega
        have hnone : (q :: rest).filter (fun r => r.1 ≤ a) = [] := by
          rw [List.filter_eq_nil_iff]
          intro r hr
          have := hafter r hr
          simpa using this
        have hempty : (segments stop (q :: rest)).filter (fun s => s.Contains a) = [] :=
          segments_containing_of_lt hafter
        by_cases hp : p.1 ≤ a
        · rw [segments, List.filter_cons_of_pos (by rw [Segment.contains_iff]; dsimp only; omega),
            hempty, inForce, List.filter_cons_of_pos (by simpa using hp), hnone]
          rfl
        · rw [segments, List.filter_cons_of_neg (by rw [Segment.contains_iff]; dsimp only; omega),
            hempty, inForce, List.filter_cons_of_neg (by simpa using hp), hnone]
          rfl

/-- A segment starts at a point and does not reach beyond `stop`. -/
theorem segment_le {stop : ℕ} {points : List (ℕ × α)} (hstop : ∀ p ∈ points, p.1 ≤ stop)
    {s : Segment α} (hs : s ∈ segments stop points) : (s.start, s.value) ∈ points ∧
      s.stop ≤ stop := by
  induction points with
  | nil => simp [segments] at hs
  | cons p points ih =>
    cases points with
    | nil =>
      obtain rfl : s = ⟨p.1, stop, p.2⟩ := by simpa [segments] using hs
      simp
    | cons q rest =>
      rcases List.mem_cons.mp hs with rfl | hs
      · exact ⟨by simp, hstop q (by simp)⟩
      · obtain ⟨hmem, hle⟩ := ih (fun r hr => hstop r (by simp [hr])) hs
        exact ⟨List.mem_cons_of_mem _ hmem, hle⟩

end Bao.Addressing
