import Mathlib

/-!
# Worklist searches

`collect` pops vertices from a stack and pushes the successors of every new one. `find` is the same
search for a hit; it ends at the first one. Every vertex is expanded once at most, so the pushes
that are still to come bound the fuel (`fuelFor`).

* What is collected is closed and is reached from the worklist (`collect_spec`).
* The search finds a hit just if the worklist leads to one (`find_iff`).
-/

namespace Bao.Graph.Worklist

open Relation

variable {V : Type*} [DecidableEq V]

/-- Visits what the worklist leads to. -/
def collect (next : V → List V) : ℕ → List V → List V → List V
  | 0, _, visited => visited
  | _ + 1, [], visited => visited
  | fuel + 1, v :: worklist, visited =>
    if v ∈ visited then collect next fuel worklist visited
    else collect next fuel ((next v).reverse ++ worklist) (v :: visited)

/-- Visits vertices up to the first hit. -/
def find (next : V → List V) (hit : V → Bool) : ℕ → List V → List V → Bool
  | 0, _, _ => false
  | _ + 1, [], _ => false
  | fuel + 1, v :: worklist, visited =>
    if v ∈ visited then find next hit fuel worklist visited
    else if hit v then true
    else find next hit fuel ((next v).reverse ++ worklist) (v :: visited)

/-- What can be pushed on a worklist, and the worklist itself. -/
def fuelFor (next : V → List V) (vertices worklist : List V) : ℕ :=
  worklist.length + (vertices.map fun v => (next v).length).sum

variable {next : V → List V} {vertices worklist visited : List V}

/-- The pushes that are still to come. -/
private def pushes (next : V → List V) (vertices visited : List V) : ℕ :=
  ((vertices.filter fun v => v ∉ visited).map fun v => (next v).length).sum

private theorem pushes_cons_le (next : V → List V) {v : V} (hv : v ∈ vertices)
    (hnew : v ∉ visited) :
    pushes next vertices (v :: visited) + (next v).length ≤ pushes next vertices visited := by
  have hmono : ∀ l : List V, pushes next l (v :: visited) ≤ pushes next l visited := by
    intro l
    refine List.Sublist.sum_le_sum ?_ fun _ _ => Nat.zero_le _
    refine (List.monotone_filter_right l fun a ha => ?_).map _
    simp only [List.mem_cons, not_or, decide_eq_true_eq] at ha ⊢
    exact ha.2
  obtain ⟨front, back, rfl⟩ := List.append_of_mem hv
  have hfront := hmono front
  have hback := hmono back
  simp only [pushes, List.filter_append, List.filter_cons, List.map_append, List.sum_append,
    List.mem_cons, true_or, not_true_eq_false, decide_false, Bool.false_eq_true, if_false,
    hnew, not_false_eq_true, decide_true, if_true, List.map_cons, List.sum_cons] at hfront hback ⊢
  omega

/-- What a search from a worklist returns. -/
structure Collects (next : V → List V) (worklist visited result : List V) : Prop where
  visited_subset : ∀ v ∈ visited, v ∈ result
  worklist_subset : ∀ v ∈ worklist, v ∈ result
  closed : ∀ v ∈ result, v ∉ visited → ∀ w ∈ next v, w ∈ result
  reached : ∀ v ∈ result, v ∈ visited ∨ ∃ u ∈ worklist, ReflTransGen (fun a b => b ∈ next a) u v

private theorem collects_of_fuel (hnext : ∀ v ∈ vertices, ∀ w ∈ next v, w ∈ vertices) {fuel : ℕ}
    (hworklist : ∀ v ∈ worklist, v ∈ vertices)
    (hfuel : worklist.length + pushes next vertices visited ≤ fuel) :
    Collects next worklist visited (collect next fuel worklist visited) := by
  induction fuel generalizing worklist visited with
  | zero =>
    obtain rfl := List.length_eq_zero_iff.mp (by omega : worklist.length = 0)
    exact ⟨fun _ hv => hv, by simp, fun _ hv hnew => absurd hv hnew, fun _ hv => .inl hv⟩
  | succ fuel ih =>
    cases worklist with
    | nil => exact ⟨fun _ hv => hv, by simp, fun _ hv hnew => absurd hv hnew, fun _ hv => .inl hv⟩
    | cons v worklist =>
      obtain ⟨hv, hworklist⟩ := List.forall_mem_cons.mp hworklist
      rw [List.length_cons] at hfuel
      rw [collect]
      split_ifs with hvisited
      · obtain ⟨hsub, hwl, hclosed, hreached⟩ := @ih worklist visited hworklist (by omega)
        exact ⟨hsub, List.forall_mem_cons.mpr ⟨hsub v hvisited, hwl⟩, hclosed, fun w hw =>
          (hreached w hw).imp_right fun ⟨u, hu, hpath⟩ => ⟨u, List.mem_cons_of_mem v hu, hpath⟩⟩
      · have hpushes := pushes_cons_le next hv hvisited
        obtain ⟨hsub, hwl, hclosed, hreached⟩ := @ih ((next v).reverse ++ worklist) (v :: visited)
          (fun w hw => (List.mem_append.mp hw).elim
            (fun hw => hnext v hv w (List.mem_reverse.mp hw)) (hworklist w))
          (by rw [List.length_append, List.length_reverse]; omega)
        refine ⟨fun w hw => hsub w (List.mem_cons_of_mem v hw), List.forall_mem_cons.mpr
          ⟨hsub v List.mem_cons_self, fun w hw => hwl w (List.mem_append_right _ hw)⟩,
          fun w hw hnew u hu => ?_, fun w hw => ?_⟩
        · by_cases hwv : w = v
          · exact hwl u (List.mem_append_left _ (List.mem_reverse.mpr (hwv ▸ hu)))
          · exact hclosed w hw (fun hcon => (List.mem_cons.mp hcon).elim hwv hnew) u hu
        · rcases hreached w hw with hw | ⟨u, hu, hpath⟩
          · rcases List.mem_cons.mp hw with rfl | hw
            · exact .inr ⟨w, List.mem_cons_self, .refl⟩
            · exact .inl hw
          · rcases List.mem_append.mp hu with hu | hu
            · exact .inr ⟨v, List.mem_cons_self, .head (List.mem_reverse.mp hu) hpath⟩
            · exact .inr ⟨u, List.mem_cons_of_mem v hu, hpath⟩

private theorem pushes_le (visited : List V) :
    pushes next vertices visited ≤ (vertices.map fun v => (next v).length).sum :=
  List.Sublist.sum_le_sum (List.filter_sublist.map _) fun _ _ => Nat.zero_le _

/-- **What is collected** is closed, but for the vertices that were visited before, and is reached
from the worklist. -/
theorem collect_spec (hnext : ∀ v ∈ vertices, ∀ w ∈ next v, w ∈ vertices) (visited : List V)
    (hworklist : ∀ v ∈ worklist, v ∈ vertices) : Collects next worklist visited
      (collect next (fuelFor next vertices worklist) worklist visited) :=
  collects_of_fuel hnext hworklist (Nat.add_le_add_left (pushes_le visited) _)

private theorem subset_collect (fuel : ℕ) {v : V} (hv : v ∈ visited) :
    v ∈ collect next fuel worklist visited := by
  induction fuel generalizing worklist visited with
  | zero => exact hv
  | succ fuel ih =>
    cases worklist with
    | nil => exact hv
    | cons w worklist =>
      rw [collect]
      split_ifs
      · exact ih hv
      · exact ih (List.mem_cons_of_mem w hv)

/-- The search for a hit finds it among what is collected. -/
private theorem find_iff_exists {hit : V → Bool} (fuel : ℕ) :
    find next hit fuel worklist visited = true ↔
      ∃ v ∈ collect next fuel worklist visited, v ∉ visited ∧ hit v = true := by
  induction fuel generalizing worklist visited with
  | zero => exact iff_of_false Bool.false_ne_true fun ⟨_, hv, hnew, _⟩ => hnew hv
  | succ fuel ih =>
    cases worklist with
    | nil => exact iff_of_false Bool.false_ne_true fun ⟨_, hv, hnew, _⟩ => hnew hv
    | cons v worklist =>
      rw [find, collect]
      split_ifs with hvisited hhit
      · exact ih
      · exact iff_of_true rfl ⟨v, subset_collect fuel List.mem_cons_self, hvisited, hhit⟩
      · rw [ih]
        refine exists_congr fun w => and_congr_right fun _ => and_congr_left fun hw => ?_
        rw [List.mem_cons, not_or]
        exact and_iff_right fun heq => hhit (heq ▸ hw)

/-- **A hit is found** just if the worklist leads to one. -/
theorem find_iff {hit : V → Bool} (hnext : ∀ v ∈ vertices, ∀ w ∈ next v, w ∈ vertices)
    (hworklist : ∀ v ∈ worklist, v ∈ vertices) :
    find next hit (fuelFor next vertices worklist) worklist [] = true ↔
      ∃ u ∈ worklist, ∃ v, ReflTransGen (fun a b => b ∈ next a) u v ∧ hit v = true := by
  obtain ⟨-, hsub, hclosed, hreached⟩ := collect_spec hnext [] hworklist
  rw [find_iff_exists]
  constructor
  · rintro ⟨v, hv, -, hhit⟩
    obtain ⟨u, hu, hpath⟩ := (hreached v hv).resolve_left List.not_mem_nil
    exact ⟨u, hu, v, hpath, hhit⟩
  · rintro ⟨u, hu, v, hpath, hhit⟩
    refine ⟨v, ?_, List.not_mem_nil, hhit⟩
    clear hhit
    induction hpath with
    | refl => exact hsub u hu
    | tail _ hstep ih => exact hclosed _ ih List.not_mem_nil _ hstep

end Bao.Graph.Worklist
