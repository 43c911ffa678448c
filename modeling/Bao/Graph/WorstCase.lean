import Bao.Graph.Propagation
import Mathlib

/-!
# When the propagation is worst-case

`propagate` hands the largest value to the children that the search has recorded. Three facts decide
whether the value of a node is the worst case over all walks to it.

* The recorded graph is acyclic, since a child is expanded after its parent (`Dag.WellFormed`).
* Kahn's algorithm processes every node, and each one after its recorded parents (`Processed`).
* All children have to be recorded, that is, the breadth-first order has to be a topological order
  (`OrderIsTopological`), and what a node is charged must not depend on the order in which the nodes
  are processed.

The last point is worked out for charges with a part that is paid once for every label
(`onceCharge`): it is enough that no label is entered at two nodes (`EntersOnce`).
-/

namespace Bao.Graph.Propagation

variable {ν σ : Type} [DecidableEq ν] {next : ν → List ν} {seed : ν}

/-! ### Walks -/

/-- A walk from the seed to a node: the nodes before it. -/
inductive Walk (next : ν → List ν) (seed : ν) : List ν → ν → Prop
  | start : Walk next seed [] seed
  | step {w : List ν} {n m : ν} (h : Walk next seed w n) (hm : m ∈ next n) :
      Walk next seed (w ++ [n]) m

/-- What the charges depend on after some nodes. -/
def seenAfter (charge : σ → ν → ℚ × σ) (seen : σ) (w : List ν) : σ :=
  w.foldl (fun s n => (charge s n).2) seen

/-- The charges of the nodes of a walk. -/
def walkCost (charge : σ → ν → ℚ × σ) : σ → List ν → ℚ
  | _, [] => 0
  | seen, n :: w => (charge seen n).1 + walkCost charge (charge seen n).2 w

omit [DecidableEq ν] in
theorem seenAfter_append (charge : σ → ν → ℚ × σ) (seen : σ) (w : List ν) (n : ν) :
    seenAfter charge seen (w ++ [n]) = (charge (seenAfter charge seen w) n).2 := by
  rw [seenAfter, List.foldl_append]
  rfl

omit [DecidableEq ν] in
theorem walkCost_append (charge : σ → ν → ℚ × σ) (seen : σ) (w : List ν) (n : ν) :
    walkCost charge seen (w ++ [n]) =
      walkCost charge seen w + (charge (seenAfter charge seen w) n).1 := by
  induction w generalizing seen with
  | nil => simp [walkCost, seenAfter]
  | cons m w ih => rw [List.cons_append, walkCost, walkCost, ih, seenAfter, seenAfter, add_assoc,
      List.foldl_cons]

/-! ### The recorded graph -/

/-- The nodes of a recorded graph. -/
abbrev Dag.nodes (dag : Dag ν) : List ν := dag.map Prod.fst

/-- **A recorded graph**: every node is expanded once, the seed first, and its children are expanded
later than it. -/
structure Dag.WellFormed (next : ν → List ν) (seed : ν) (dag : Dag ν) : Prop where
  nodup : dag.nodes.Nodup
  subset : ∀ p ∈ dag, p.2 ⊆ next p.1
  nodup_children : ∀ p ∈ dag, p.2.Nodup
  not_self : ∀ p ∈ dag, p.1 ∉ p.2
  ordered : dag.Pairwise fun p q => p.1 ∉ q.2
  seed_not_child : ∀ p ∈ dag, seed ∉ p.2

/-- The state of the search: the children that are not expanded yet are in the queue, and every node
but the seed is a child. -/
structure SearchInvariant (next : ν → List ν) (seed : ν) (queue : List ν) (dag : Dag ν) : Prop
    extends dag.WellFormed next seed where
  closed : ∀ p ∈ dag, ∀ c ∈ p.2, c ∈ dag.nodes ∨ c ∈ queue
  parent : ∀ n, n ∈ dag.nodes ∨ n ∈ queue → n ≠ seed → ∃ p ∈ dag, n ∈ p.2
  start : seed ∈ dag.nodes ∨ dag = [] ∧ queue = [seed]

namespace SearchInvariant

variable {queue : List ν} {dag : Dag ν} {n : ν}

omit [DecidableEq ν] in
theorem init : SearchInvariant next seed [seed] [] where
  nodup := List.nodup_nil
  subset := by simp
  nodup_children := by simp
  not_self := by simp
  ordered := List.Pairwise.nil
  seed_not_child := by simp
  closed := by simp
  parent := by simp
  start := .inr ⟨rfl, rfl⟩

omit [DecidableEq ν] in
/-- A node that is in the queue again is dropped. -/
theorem skip (h : SearchInvariant next seed (n :: queue) dag) (hn : n ∈ dag.nodes) :
    SearchInvariant next seed queue dag where
  toWellFormed := h.toWellFormed
  closed p hp c hc := by
    rcases h.closed p hp c hc with hc | hc
    · exact .inl hc
    · rcases List.mem_cons.mp hc with rfl | hc
      · exact .inl hn
      · exact .inr hc
  parent m hm := h.parent m (hm.imp_right (List.mem_cons_of_mem n))
  start := by
    rcases h.start with hs | ⟨rfl, -⟩
    · exact .inl hs
    · simp at hn

/-- A node is expanded. -/
theorem expand (hnodup : ∀ n, (next n).Nodup) (h : SearchInvariant next seed (n :: queue) dag)
    (hn : n ∉ dag.nodes) :
    SearchInvariant next seed (queue ++ (next n).filter fun m => m ∉ n :: dag.nodes)
      (dag ++ [(n, (next n).filter fun m => m ∉ n :: dag.nodes)]) where
  nodup := by
    rw [Dag.nodes, List.map_append, List.map_singleton]
    exact h.nodup.append (List.nodup_singleton n) (by simpa using hn)
  subset p hp := by
    rcases List.mem_append.mp hp with hp | hp
    · exact h.subset p hp
    · obtain rfl := List.mem_singleton.mp hp
      exact fun c hc => List.mem_of_mem_filter hc
  nodup_children p hp := by
    rcases List.mem_append.mp hp with hp | hp
    · exact h.nodup_children p hp
    · obtain rfl := List.mem_singleton.mp hp
      exact (hnodup n).filter _
  not_self p hp := by
    rcases List.mem_append.mp hp with hp | hp
    · exact h.not_self p hp
    · obtain rfl := List.mem_singleton.mp hp
      simp
  ordered := by
    refine List.pairwise_append.mpr ⟨h.ordered, List.pairwise_singleton _ _, fun p hp q hq => ?_⟩
    obtain rfl := List.mem_singleton.mp hq
    have hmem : p.1 ∈ dag.nodes := List.mem_map_of_mem hp
    simp [hmem]
  seed_not_child p hp := by
    rcases List.mem_append.mp hp with hp | hp
    · exact h.seed_not_child p hp
    · obtain rfl := List.mem_singleton.mp hp
      rcases h.start with hs | ⟨-, hs⟩
      · simp [hs]
      · obtain ⟨rfl, -⟩ := List.cons.inj hs
        simp
  closed p hp c hc := by
    rw [Dag.nodes, List.map_append, List.mem_append, List.mem_append]
    rcases List.mem_append.mp hp with hp | hp
    · rcases h.closed p hp c hc with hc | hc
      · exact .inl (.inl hc)
      · rcases List.mem_cons.mp hc with rfl | hc
        · exact .inl (.inr (by simp))
        · exact .inr (.inl hc)
    · obtain rfl := List.mem_singleton.mp hp
      exact .inr (.inr hc)
  parent m hm hne := by
    rw [Dag.nodes, List.map_append, List.mem_append, List.mem_append] at hm
    -- an earlier parent stays one
    have hold : m ∈ dag.nodes ∨ m ∈ n :: queue →
        ∃ p ∈ dag ++ [(n, (next n).filter fun m => m ∉ n :: dag.nodes)], m ∈ p.2 := by
      intro hm
      obtain ⟨p, hp, hmp⟩ := h.parent m hm hne
      exact ⟨p, List.mem_append_left _ hp, hmp⟩
    rcases hm with (hm | hm) | hm | hm
    · exact hold (.inl hm)
    · obtain rfl : m = n := by simpa using hm
      exact hold (.inr (List.mem_cons_self ..))
    · exact hold (.inr (List.mem_cons_of_mem _ hm))
    · exact ⟨_, List.mem_append_right _ (List.mem_singleton_self _), hm⟩
  start := by
    rcases h.start with hs | ⟨-, hs⟩
    · exact .inl (by simp [Dag.nodes, List.map_append, hs])
    · obtain ⟨rfl, -⟩ := List.cons.inj hs
      exact .inl (by simp)

end SearchInvariant

/-- The steps the search still needs: one for every node in the queue, and one for every child of a
node that is not expanded. -/
def searchSteps (next : ν → List ν) (U : Finset ν) (queue : List ν) (dag : Dag ν) : ℕ :=
  queue.length + ∑ n ∈ U with n ∉ dag.nodes, (next n).length

/-- **The search comes to its end** with an empty queue. -/
theorem bfs_spec (hnodup : ∀ n, (next n).Nodup) {U : Finset ν}
    (hU : ∀ n ∈ U, ∀ m ∈ next n, m ∈ U) {fuel : ℕ} {queue : List ν} {dag : Dag ν}
    (h : SearchInvariant next seed queue dag) (hqueue : ∀ n ∈ queue, n ∈ U)
    (hfuel : searchSteps next U queue dag ≤ fuel) :
    SearchInvariant next seed [] (bfs next fuel queue dag) := by
  induction fuel generalizing queue dag with
  | zero =>
    obtain rfl : queue = [] := by
      rw [← List.length_eq_zero_iff]
      rw [searchSteps] at hfuel
      omega
    exact h
  | succ fuel ih =>
    cases queue with
    | nil => exact h
    | cons n queue =>
      rw [searchSteps, List.length_cons] at hfuel
      rw [bfs]
      split_ifs with hn
      · refine ih (h.skip hn) (fun m hm => hqueue m (List.mem_cons_of_mem _ hm)) ?_
        rw [searchSteps]
        omega
      · have hnU := hqueue n (List.mem_cons_self ..)
        refine ih (h.expand hnodup hn) (fun m hm => ?_) ?_
        · rcases List.mem_append.mp hm with hm | hm
          · exact hqueue m (List.mem_cons_of_mem _ hm)
          · exact hU n hnU m (List.mem_of_mem_filter hm)
        · -- the children of `n` leave the sum for the queue
          have hsplit : (U.filter fun m => m ∉ dag.nodes) =
              insert n (U.filter fun m =>
                m ∉ Dag.nodes (dag ++ [(n, (next n).filter fun m => m ∉ n :: dag.nodes)])) := by
            ext m
            by_cases hmn : m = n
            · subst hmn
              simp [hnU, hn]
            · simp [hmn]
          rw [hsplit, Finset.sum_insert (by simp)] at hfuel
          have hle := List.length_filter_le (fun m => decide (m ∉ n :: dag.nodes)) (next n)
          rw [searchSteps, List.length_append]
          simp only [Dag.nodes] at hfuel hle ⊢
          omega

/-- The breadth-first order is a topological order: all children of a node are recorded. -/
def OrderIsTopological (next : ν → List ν) (fuel : ℕ) (seed : ν) : Prop :=
  ∀ p ∈ bfs next fuel [seed] [], p.2 = next p.1

/-! ### Kahn's algorithm -/

namespace Dag

variable {dag : Dag ν}

theorem children_cons (p : ν × List ν) (dag : Dag ν) (n : ν) :
    Dag.children (p :: dag) n = if n = p.1 then p.2 else dag.children n := by
  rw [children, List.lookup_cons, children]
  split_ifs with h
  · rw [h, beq_self_eq_true]
    rfl
  · rw [beq_eq_false_iff_ne.mpr h]

/-- A node is listed once, so its children are those of its entry. -/
theorem children_eq (hnodup : dag.nodes.Nodup) {p : ν × List ν} (hp : p ∈ dag) :
    dag.children p.1 = p.2 := by
  induction dag with
  | nil => cases hp
  | cons q dag ih =>
    rw [nodes, List.map_cons, List.nodup_cons] at hnodup
    rw [children_cons]
    rcases List.mem_cons.mp hp with rfl | hp
    · exact if_pos rfl
    · have hne : p.1 ≠ q.1 := fun h => hnodup.1 (h ▸ List.mem_map_of_mem hp)
      rw [if_neg hne]
      exact ih hnodup.2 hp

/-- A node that is not listed has no children. -/
theorem children_of_notMem {n : ν} (hn : n ∉ dag.nodes) : dag.children n = [] := by
  induction dag with
  | nil => rfl
  | cons p dag ih =>
    rw [nodes, List.map_cons, List.mem_cons, not_or] at hn
    rw [children_cons, if_neg hn.1, ih hn.2]

end Dag

/-- The recorded edges into a node whose source is not processed. -/
def openInDegree (dag : Dag ν) (processed : List ν) (c : ν) : ℕ :=
  ((dag.filter fun p => p.1 ∉ processed).map fun p => p.2.count c).sum

/-- What is known of a node when it is processed: all its recorded parents are processed, and it is
handed the largest of their values. -/
structure Settled (dag : Dag ν) (charge : σ → ν → ℚ × σ) (seed : ν) (init : ℚ) (seen : σ)
    (done : List (ν × ℚ)) (n : ν) (v : ℚ) : Prop where
  mem : n ∈ dag.nodes
  fresh : n ∉ done.map Prod.fst
  parents : ∀ p ∈ dag, n ∈ p.2 → p.1 ∈ done.map Prod.fst
  seed_le : n = seed → init + (charge (seenAfter charge seen (done.map Prod.fst)) n).1 ≤ v
  parent_le : ∀ q ∈ done, n ∈ dag.children q.1 →
    q.2 + (charge (seenAfter charge seen (done.map Prod.fst)) n).1 ≤ v

/-- **A run of Kahn's algorithm**, as far as it has come. -/
inductive Processed (dag : Dag ν) (charge : σ → ν → ℚ × σ) (seed : ν) (init : ℚ) (seen : σ) :
    List (ν × ℚ) → Prop
  | nil : Processed dag charge seed init seen []
  | snoc {done : List (ν × ℚ)} {n : ν} {v : ℚ} (h : Processed dag charge seed init seen done)
      (hn : Settled dag charge seed init seen done n v) :
      Processed dag charge seed init seen (done ++ [(n, v)])

/-- The state of Kahn's algorithm. -/
structure Kahn.Invariant (dag : Dag ν) (charge : σ → ν → ℚ × σ) (seed : ν) (init : ℚ) (seen : σ)
    (k : Kahn ν σ) : Prop where
  processed : Processed dag charge seed init seen k.done
  inDeg_eq : ∀ c, k.inDeg c = openInDegree dag (k.done.map Prod.fst) c
  queue_nodup : k.queue.Nodup
  mem_queue : ∀ n, n ∈ k.queue ↔ n ∈ dag.nodes ∧ n ∉ k.done.map Prod.fst ∧ k.inDeg n = 0
  seen_eq : k.seen = seenAfter charge seen (k.done.map Prod.fst)
  handed_seed : ∃ x, k.handed seed = some x ∧ init ≤ x
  handed_ge : ∀ q ∈ k.done, ∀ c ∈ dag.children q.1, ∃ x, k.handed c = some x ∧ q.2 ≤ x

/-! ### One step -/

private theorem decrement_apply (cs : List ν) (d : ν → ℕ) (c : ν) :
    (cs.foldl (fun d c => Function.update d c (d c - 1)) d) c = d c - cs.count c := by
  induction cs generalizing d with
  | nil => simp
  | cons m cs ih =>
    rw [List.foldl_cons, ih]
    by_cases hm : m = c
    · subst hm
      rw [Function.update_self, List.count_cons_self]
      omega
    · rw [Function.update_of_ne (Ne.symm hm), List.count_cons_of_ne hm]

/-- What the children are handed: at least the value, and at least what they were handed before. -/
private theorem handed_apply (cs : List ν) (h : ν → Option ℚ) (value : ℚ) (c : ν) :
    (∀ y, h c = some y → ∃ x, (cs.foldl (fun h c => Function.update h c
        (some (match h c with
          | some v => max v value
          | none => value))) h) c = some x ∧ y ≤ x) ∧
      (c ∈ cs → ∃ x, (cs.foldl (fun h c => Function.update h c
        (some (match h c with
          | some v => max v value
          | none => value))) h) c = some x ∧ value ≤ x) := by
  induction cs generalizing h with
  | nil => exact ⟨fun y hy => ⟨y, hy, le_rfl⟩, fun hc => absurd hc List.not_mem_nil⟩
  | cons m cs ih =>
    rw [List.foldl_cons]
    generalize hh : Function.update h m _ = h'
    obtain ⟨hold, hnew⟩ := ih h'
    by_cases hm : c = m
    · subst hm
      have hc : ∃ x, h' c = some x ∧ value ≤ x ∧ ∀ y, h c = some y → y ≤ x := by
        rw [← hh, Function.update_self]
        cases h c with
        | none => exact ⟨value, rfl, le_rfl, by simp⟩
        | some v => exact ⟨max v value, rfl, le_max_right _ _, by simp⟩
      obtain ⟨x, hx, hvalue, hprev⟩ := hc
      obtain ⟨x', hx', hle⟩ := hold x hx
      exact ⟨fun y hy => ⟨x', hx', (hprev y hy).trans hle⟩, fun _ => ⟨x', hx', hvalue.trans hle⟩⟩
    · have hsame : h' c = h c := by rw [← hh, Function.update_of_ne hm]
      exact ⟨fun y hy => hold y (hsame.trans hy), fun hc =>
        hnew ((List.mem_cons.mp hc).resolve_left hm)⟩

private theorem openInDegree_cons (p : ν × List ν) (dag : Dag ν) (done : List ν) (c : ν) :
    openInDegree (p :: dag) done c =
      (if p.1 ∈ done then 0 else p.2.count c) + openInDegree dag done c := by
  simp only [openInDegree, List.filter_cons]
  by_cases hp : p.1 ∈ done
  · simp [hp]
  · simp [hp]

/-- A node is taken off the open in-degrees of its children. -/
private theorem openInDegree_append {dag : Dag ν} (hnodup : dag.nodes.Nodup) {done : List ν} {n : ν}
    (hn : n ∉ done) (c : ν) :
    openInDegree dag done c = openInDegree dag (done ++ [n]) c + (dag.children n).count c := by
  induction dag with
  | nil => simp [openInDegree, Dag.children]
  | cons p dag ih =>
    rw [Dag.nodes, List.map_cons, List.nodup_cons] at hnodup
    have ih := ih hnodup.2
    rw [openInDegree_cons, openInDegree_cons, Dag.children_cons, ih]
    by_cases hpn : n = p.1
    · subst hpn
      rw [if_neg hn, if_pos (by simp), if_pos rfl, Dag.children_of_notMem hnodup.1, List.count_nil]
      omega
    · have hiff : p.1 ∈ done ++ [n] ↔ p.1 ∈ done := by simp [Ne.symm hpn]
      rw [if_neg hpn, if_congr hiff rfl rfl, add_assoc]

namespace Processed

variable {dag : Dag ν} {charge : σ → ν → ℚ × σ} {init : ℚ} {seen : σ} {done : List (ν × ℚ)}

omit [DecidableEq ν] in
private theorem map_fst_append (done : List (ν × ℚ)) (n : ν) (v : ℚ) :
    (done ++ [(n, v)]).map Prod.fst = done.map Prod.fst ++ [n] := by
  rw [List.map_append, List.map_singleton]

/-- No node is processed twice. -/
theorem nodup (h : Processed dag charge seed init seen done) : (done.map Prod.fst).Nodup := by
  induction h with
  | nil => exact List.nodup_nil
  | snoc _ hn ih =>
    rw [map_fst_append]
    exact ih.append (List.nodup_singleton _) (by simpa using hn.fresh)

/-- What holds of a node when it is processed. -/
theorem settled (h : Processed dag charge seed init seen done) {pre post : List (ν × ℚ)} {n : ν}
    {v : ℚ} (hdone : done = pre ++ (n, v) :: post) :
    Processed dag charge seed init seen pre ∧ Settled dag charge seed init seen pre n v := by
  induction h generalizing post with
  | nil => simp at hdone
  | @snoc done m u hprocessed hm ih =>
    rcases List.eq_nil_or_concat post with rfl | ⟨post, x, rfl⟩
    · obtain ⟨rfl, heq⟩ := List.append_inj' hdone rfl
      obtain ⟨rfl, rfl⟩ := Prod.mk.inj (List.singleton_inj.mp heq)
      exact ⟨hprocessed, hm⟩
    · rw [List.concat_eq_append, ← List.cons_append, ← List.append_assoc] at hdone
      exact ih (List.append_inj' hdone rfl).1

/-- A processed node has been processed at some point. -/
theorem exists_settled (h : Processed dag charge seed init seen done) {n : ν}
    (hn : n ∈ done.map Prod.fst) : ∃ pre v post, done = pre ++ (n, v) :: post ∧
      Processed dag charge seed init seen pre ∧ Settled dag charge seed init seen pre n v := by
  obtain ⟨⟨n, v⟩, hmem, rfl⟩ := List.mem_map.mp hn
  obtain ⟨pre, post, hdone⟩ := List.append_of_mem hmem
  exact ⟨pre, v, post, hdone, h.settled hdone⟩

/-- The recorded parents of a processed node are processed. -/
theorem parent_mem (h : Processed dag charge seed init seen done) {n : ν}
    (hn : n ∈ done.map Prod.fst) {p : ν × List ν} (hp : p ∈ dag) (hnp : n ∈ p.2) :
    p.1 ∈ done.map Prod.fst := by
  obtain ⟨pre, v, post, rfl, -, hsettled⟩ := h.exists_settled hn
  rw [List.map_append]
  exact List.mem_append_left _ (hsettled.parents p hp hnp)

end Processed

/-- **One step of Kahn's algorithm.** -/
theorem Kahn.Invariant.step {dag : Dag ν} (hdag : dag.WellFormed next seed)
    (hclosed : ∀ p ∈ dag, p.2 ⊆ dag.nodes) {charge : σ → ν → ℚ × σ} {init : ℚ} {seen : σ}
    {k : Kahn ν σ} (h : k.Invariant dag charge seed init seen) {n : ν} {queue : List ν}
    (hqueue : k.queue = n :: queue) :
    (Kahn.step dag charge n { k with queue := queue }).Invariant dag charge seed init seen := by
  obtain ⟨hnode, hfresh, hzero⟩ := (h.mem_queue n).mp (hqueue ▸ List.mem_cons_self ..)
  obtain ⟨⟨m, cs⟩, hp, rfl⟩ := List.mem_map.mp hnode
  have hchildren : dag.children m = cs := dag.children_eq hdag.nodup hp
  obtain ⟨hnotqueue, hrestNodup⟩ := List.nodup_cons.mp (hqueue ▸ h.queue_nodup)
  -- all parents are processed
  have hparents : ∀ p ∈ dag, m ∈ p.2 → p.1 ∈ k.done.map Prod.fst := by
    intro p hp hmp
    by_contra hopen
    rw [h.inDeg_eq, openInDegree, List.sum_eq_zero_iff] at hzero
    have hcount := hzero _ (List.mem_map_of_mem (List.mem_filter.mpr ⟨hp, by simpa using hopen⟩))
    exact List.count_eq_zero.mp hcount hmp
  have hsettled : Settled dag charge seed init seen k.done m
      ((k.handed m).getD 0 + (charge k.seen m).1) := by
    refine ⟨hnode, hfresh, hparents, fun hseed => ?_, fun q hq hmq => ?_⟩
    · obtain ⟨x, hx, hle⟩ := h.handed_seed
      rw [hseed, hx, ← h.seen_eq, Option.getD_some]
      exact add_le_add_left hle _
    · obtain ⟨x, hx, hle⟩ := h.handed_ge q hq m hmq
      rw [hx, ← h.seen_eq, Option.getD_some]
      exact add_le_add_left hle _
  have hinDeg : ∀ c, (Kahn.step dag charge m { k with queue := queue }).inDeg c =
      openInDegree dag (k.done.map Prod.fst ++ [m]) c := by
    intro c
    have hcount := openInDegree_append hdag.nodup hfresh c
    rw [← h.inDeg_eq] at hcount
    have happly := decrement_apply (dag.children m) k.inDeg c
    rw [hcount] at happly
    exact happly.trans (Nat.add_sub_cancel _ _)
  have hmono : ∀ c, openInDegree dag (k.done.map Prod.fst ++ [m]) c = k.inDeg c - cs.count c := by
    intro c
    rw [h.inDeg_eq, openInDegree_append hdag.nodup hfresh c, hchildren, Nat.add_sub_cancel]
  have hopen : ∀ c ∈ cs, k.inDeg c ≠ 0 := by
    intro c hc
    rw [h.inDeg_eq, openInDegree_append hdag.nodup hfresh c, hchildren]
    have := List.count_pos_iff.mpr hc
    omega
  have hdone : (Kahn.step dag charge m { k with queue := queue }).done.map Prod.fst =
      k.done.map Prod.fst ++ [m] := by
    rw [Kahn.step, List.map_append, List.map_singleton]
  have hmem : ∀ c, c ∈ (Kahn.step dag charge m { k with queue := queue }).queue ↔
      c ∈ queue ∨ c ∈ cs ∧ openInDegree dag (k.done.map Prod.fst ++ [m]) c = 0 := by
    intro c
    rw [← hinDeg c, ← hchildren]
    simp only [Kahn.step, List.mem_append, List.mem_filter, decide_eq_true_eq]
  refine ⟨.snoc h.processed hsettled, ?_, ?_, ?_, ?_, ?_, ?_⟩
  · intro c
    rw [hdone]
    exact hinDeg c
  · have hfilter : ((dag.children m).filter fun c => decide
        ((Kahn.step dag charge m { k with queue := queue }).inDeg c = 0)).Nodup :=
      (hchildren ▸ hdag.nodup_children _ hp).filter _
    refine hrestNodup.append hfilter fun c hc hc' => ?_
    have hcs : c ∈ cs := hchildren ▸ List.mem_of_mem_filter hc'
    have hold := (h.mem_queue c).mp (hqueue ▸ List.mem_cons_of_mem m hc)
    exact hopen c hcs hold.2.2
  · intro c
    rw [hmem, hdone, hinDeg, List.mem_append, List.mem_singleton]
    constructor
    · rintro (hc | ⟨hc, hz⟩)
      · obtain ⟨hcn, hcf, hcz⟩ := (h.mem_queue c).mp (hqueue ▸ List.mem_cons_of_mem m hc)
        refine ⟨hcn, fun hcm => hcm.elim hcf fun heq => hnotqueue (heq ▸ hc), ?_⟩
        rw [hmono, hcz, Nat.zero_sub]
      · refine ⟨hclosed _ hp hc, fun hcm => ?_, hz⟩
        rcases hcm with hcm | rfl
        · exact hfresh (h.processed.parent_mem hcm hp hc)
        · exact hdag.not_self _ hp hc
    · rintro ⟨hcn, hcm, hcz⟩
      by_cases hold : k.inDeg c = 0
      · have hcq := (h.mem_queue c).mpr ⟨hcn, fun hc => hcm (.inl hc), hold⟩
        rw [hqueue] at hcq
        exact .inl ((List.mem_cons.mp hcq).resolve_left fun hc => hcm (.inr hc))
      · refine .inr ⟨?_, hcz⟩
        rw [hmono] at hcz
        exact List.count_pos_iff.mp (by omega)
  · rw [hdone, seenAfter_append, ← h.seen_eq]
    rfl
  · obtain ⟨x, hx, hle⟩ := h.handed_seed
    obtain ⟨y, hy, hxy⟩ := (handed_apply (dag.children m) k.handed _ seed).1 x hx
    exact ⟨y, hy, hle.trans hxy⟩
  · intro q hq c hc
    rcases List.mem_append.mp hq with hq | hq
    · obtain ⟨x, hx, hle⟩ := h.handed_ge q hq c hc
      obtain ⟨y, hy, hxy⟩ := (handed_apply (dag.children m) k.handed _ c).1 x hx
      exact ⟨y, hy, hle.trans hxy⟩
    · obtain rfl := List.mem_singleton.mp hq
      exact (handed_apply (dag.children m) k.handed _ c).2 hc

/-! ### A whole run -/

section Run

variable {dag : Dag ν} {charge : σ → ν → ℚ × σ} {init : ℚ} {seen : σ} {k : Kahn ν σ}

omit [DecidableEq ν] in
/-- The first element with a property. -/
private theorem exists_first {α : Type*} {P : α → Prop} {l : List α} (h : ∃ x ∈ l, P x) :
    ∃ pre x post, l = pre ++ x :: post ∧ P x ∧ ∀ y ∈ pre, ¬P y := by
  classical
  obtain ⟨x, hx, hPx⟩ := h
  have hsome : (l.find? fun x => decide (P x)).isSome := by
    rw [List.find?_isSome]
    exact ⟨x, hx, decide_eq_true hPx⟩
  obtain ⟨y, hy⟩ := Option.isSome_iff_exists.mp hsome
  obtain ⟨hPy, pre, post, rfl, hpre⟩ := List.find?_eq_some_iff_append.mp hy
  exact ⟨pre, y, post, rfl, of_decide_eq_true hPy, fun z hz => by simpa using hpre z hz⟩

/-- As long as a node is not processed, there is one in the queue: the first one of the recorded
graph. -/
private theorem queue_ne_nil (hdag : dag.WellFormed next seed)
    (h : k.Invariant dag charge seed init seen) {n : ν} (hn : n ∈ dag.nodes)
    (hopen : n ∉ k.done.map Prod.fst) : k.queue ≠ [] := by
  obtain ⟨p, hp, rfl⟩ := List.mem_map.mp hn
  obtain ⟨pre, p, post, hsplit, hfirst, hpre⟩ :=
    exists_first (P := fun q : ν × List ν => q.1 ∉ k.done.map Prod.fst) ⟨p, hp, hopen⟩
  have hzero : k.inDeg p.1 = 0 := by
    rw [h.inDeg_eq, openInDegree, List.sum_eq_zero_iff]
    intro c hc
    obtain ⟨q, hq, rfl⟩ := List.mem_map.mp hc
    obtain ⟨hq, hqopen⟩ := List.mem_filter.mp hq
    rw [List.count_eq_zero]
    have hordered := hdag.ordered
    rw [hsplit] at hq hordered
    rcases List.mem_append.mp hq with hq | hq
    · exact absurd (of_decide_eq_true hqopen) (hpre q hq)
    · rcases List.mem_cons.mp hq with rfl | hq
      · exact hdag.not_self q (hsplit ▸ List.mem_append_right _ (List.mem_cons_self ..))
      · exact (List.pairwise_cons.mp (List.pairwise_append.mp hordered).2.1).1 q hq
  have hmem : p.1 ∈ k.queue := by
    refine (h.mem_queue p.1).mpr ⟨?_, hfirst, hzero⟩
    rw [hsplit]
    exact List.mem_map_of_mem (List.mem_append_right _ (List.mem_cons_self ..))
  exact List.ne_nil_of_mem hmem

/-- **Kahn's algorithm processes every node.** -/
theorem kahn_spec (hdag : dag.WellFormed next seed) (hclosed : ∀ p ∈ dag, p.2 ⊆ dag.nodes)
    (h : k.Invariant dag charge seed init seen) {fuel : ℕ}
    (hfuel : dag.length ≤ fuel + k.done.length) :
    Processed dag charge seed init seen (kahn dag charge fuel k).done ∧
      ∀ n ∈ dag.nodes, n ∈ (kahn dag charge fuel k).done.map Prod.fst := by
  induction fuel generalizing k with
  | zero =>
    refine ⟨h.processed, fun n hn => ?_⟩
    have hsub : k.done.map Prod.fst ⊆ dag.nodes := by
      intro m hm
      obtain ⟨pre, v, post, -, -, hsettled⟩ := h.processed.exists_settled hm
      exact hsettled.mem
    have hperm := (List.subperm_of_subset h.processed.nodup hsub).perm_of_length_le
      (by simpa using hfuel)
    exact hperm.mem_iff.mpr hn
  | succ fuel ih =>
    cases hqueue : k.queue with
    | nil =>
      have hkahn : kahn dag charge (fuel + 1) k = k := by rw [kahn, hqueue]
      rw [hkahn]
      refine ⟨h.processed, fun n hn => ?_⟩
      by_contra hopen
      exact queue_ne_nil hdag h hn hopen hqueue
    | cons n queue =>
      have hkahn : kahn dag charge (fuel + 1) k =
          kahn dag charge fuel (Kahn.step dag charge n { k with queue := queue }) := by
        rw [kahn, hqueue]
      rw [hkahn]
      refine ih (h.step hdag hclosed hqueue) ?_
      have hlength : (Kahn.step dag charge n { k with queue := queue }).done.length =
          k.done.length + 1 := by simp [Kahn.step]
      omega

end Run

/-- **The run of a propagation**: it processes every node of a well-formed recorded graph that
contains all reachable nodes. -/
theorem propagate_spec (hnodup : ∀ n, (next n).Nodup) {U : Finset ν} (hseed : seed ∈ U)
    (hU : ∀ n ∈ U, ∀ m ∈ next n, m ∈ U) {fuel : ℕ} (hfuel : 1 + ∑ n ∈ U, (next n).length ≤ fuel)
    (charge : σ → ν → ℚ × σ) (init : ℚ) (seen : σ) :
    SearchInvariant next seed [] (bfs next fuel [seed] []) ∧
      Processed (bfs next fuel [seed] []) charge seed init seen
        (propagate next charge fuel seed init seen) ∧
      ∀ n ∈ Dag.nodes (bfs next fuel [seed] []),
        n ∈ (propagate next charge fuel seed init seen).map Prod.fst := by
  have hsearch : SearchInvariant next seed [] (bfs next fuel [seed] []) := by
    refine bfs_spec hnodup hU .init (by simpa using hseed) ?_
    simpa [searchSteps] using hfuel
  set dag := bfs next fuel [seed] []
  have hinit : Kahn.Invariant dag charge seed init seen
      { queue := (dag.map Prod.fst).filter fun n => inDegree dag n = 0
        inDeg := inDegree dag
        handed := Function.update (fun _ => none) seed (some init)
        seen := seen
        done := [] } := by
    refine ⟨.nil, fun c => ?_, hsearch.nodup.filter _, fun n => ?_, rfl, ⟨init, ?_, le_rfl⟩, ?_⟩
    · simp [inDegree, openInDegree]
    · simp [List.mem_filter]
    · simp
    · simp
  have hclosed : ∀ p ∈ dag, p.2 ⊆ dag.nodes := fun p hp c hc =>
    (hsearch.closed p hp c hc).resolve_right List.not_mem_nil
  have hrun := kahn_spec hsearch.toWellFormed hclosed hinit
    (show dag.length ≤ dag.length + _ from Nat.le_add_right _ _)
  exact ⟨hsearch, hrun⟩

/-! ### The worst case -/

section WorstCase

variable {dag : Dag ν} {charge : σ → ν → ℚ × σ} {init : ℚ} {seen : σ} {done : List (ν × ℚ)}

/-- A processed node is reached by a walk over nodes that are processed before it. -/
theorem Processed.exists_walk (h : Processed dag charge seed init seen done)
    (hsearch : SearchInvariant next seed [] dag) {pre post : List (ν × ℚ)} {n : ν} {v : ℚ}
    (hdone : done = pre ++ (n, v) :: post) :
    ∃ w, Walk next seed w n ∧ ∀ m ∈ w, m ∈ pre.map Prod.fst := by
  induction hlength : pre.length using Nat.strong_induction_on generalizing pre post n v with
  | _ l ih =>
    by_cases hseed : n = seed
    · subst hseed
      exact ⟨[], .start, by simp⟩
    · obtain ⟨-, hsettled⟩ := h.settled hdone
      obtain ⟨p, hp, hnp⟩ := hsearch.parent n (.inl hsettled.mem) hseed
      have hparent := hsettled.parents p hp hnp
      obtain ⟨⟨m, u⟩, hm, hmp⟩ := List.mem_map.mp hparent
      obtain ⟨pre₁, pre₂, rfl⟩ := List.append_of_mem hm
      rw [List.append_assoc, List.cons_append] at hdone
      obtain ⟨w, hw, hbefore⟩ := ih pre₁.length (by simp at hlength; omega) hdone rfl
      simp only at hmp
      subst hmp
      refine ⟨w ++ [p.1], .step hw (hsearch.subset p hp hnp), fun x hx => ?_⟩
      rw [List.map_append, List.mem_append]
      rcases List.mem_append.mp hx with hx | hx
      · exact .inl (hbefore x hx)
      · rw [List.mem_singleton.mp hx]
        exact .inr (List.mem_cons_self ..)

/-- **The value of a node is the worst case over all walks to it** if the breadth-first order is a
topological order and a node is charged at least what it is charged on a walk. -/
theorem Processed.le_of_walk (h : Processed dag charge seed init seen done)
    (hsearch : SearchInvariant next seed [] dag) (hall : ∀ n ∈ dag.nodes, n ∈ done.map Prod.fst)
    (htopological : ∀ p ∈ dag, p.2 = next p.1)
    (hcharge : ∀ {w n pre v}, Walk next seed w n → Processed dag charge seed init seen pre →
      Settled dag charge seed init seen pre n v → (charge (seenAfter charge seen w) n).1 ≤
        (charge (seenAfter charge seen (pre.map Prod.fst)) n).1)
    {w : List ν} {n : ν} (hw : Walk next seed w n) :
    ∃ v, (n, v) ∈ done ∧ init + walkCost charge seen (w ++ [n]) ≤ v := by
  have hstart : seed ∈ dag.nodes := by
    rcases hsearch.start with hs | ⟨-, hs⟩
    · exact hs
    · simp at hs
  induction hw with
  | start =>
    obtain ⟨pre, v, post, rfl, hpre, hsettled⟩ := h.exists_settled (hall seed hstart)
    refine ⟨v, by simp, ?_⟩
    have hle := hcharge .start hpre hsettled
    have hseed := hsettled.seed_le rfl
    calc init + walkCost charge seen ([] ++ [seed])
        = init + (charge (seenAfter charge seen []) seed).1 := by
          simp [walkCost, seenAfter]
      _ ≤ init + (charge (seenAfter charge seen (pre.map Prod.fst)) seed).1 := by gcongr
      _ ≤ v := hseed
  | @step w n m hw hm ih =>
    obtain ⟨u, hu, hle⟩ := ih
    obtain ⟨_, _, _, _, _, hn⟩ := h.exists_settled (List.mem_map_of_mem hu)
    obtain ⟨⟨n, cs⟩, hp, rfl⟩ := List.mem_map.mp hn.mem
    have hcs : cs = next n := htopological _ hp
    have hmcs : m ∈ cs := hcs ▸ hm
    have hmnode : m ∈ dag.nodes := (hsearch.closed _ hp m hmcs).resolve_right List.not_mem_nil
    obtain ⟨pre, v, post, hdone, hpre, hsettled⟩ := h.exists_settled (hall m hmnode)
    refine ⟨v, by simp [hdone], ?_⟩
    -- the parent is processed earlier, with the same value
    obtain ⟨⟨n', u'⟩, hn', rfl⟩ := List.mem_map.mp (hsettled.parents _ hp hmcs)
    have heq : u' = u := by
      have hmem : (n', u') ∈ done := hdone ▸ List.mem_append_left _ hn'
      exact (List.inj_on_of_nodup_map h.nodup hmem hu rfl |> Prod.mk.inj).2
    subst heq
    have hparent := hsettled.parent_le _ hn' (by rw [Dag.children_eq hsearch.nodup hp]; exact hmcs)
    have hmore := hcharge (hw.step hm) hpre hsettled
    calc init + walkCost charge seen (w ++ [n'] ++ [m])
        = init + walkCost charge seen (w ++ [n']) +
            (charge (seenAfter charge seen (w ++ [n'])) m).1 := by
          rw [walkCost_append, add_assoc]
      _ ≤ u' + (charge (seenAfter charge seen (pre.map Prod.fst)) m).1 := by gcongr
      _ ≤ v := hparent

end WorstCase

/-! ### Charges that are paid once -/

section Once

variable {κ : Type} [DecidableEq κ] {label : ν → Option κ} {extra base : ν → ℚ} {seen : List κ}

/-- A charge with a part that is paid once for every label. -/
def onceCharge (label : ν → Option κ) (extra base : ν → ℚ) (seen : List κ) (n : ν) : ℚ × List κ :=
  match label n with
  | none => (base n, seen)
  | some l => if l ∈ seen then (base n, seen) else (extra n + base n, l :: seen)

omit [DecidableEq ν] in
private theorem mem_onceCharge (seen : List κ) (n : ν) (l : κ) :
    l ∈ (onceCharge label extra base seen n).2 ↔ l ∈ seen ∨ label n = some l := by
  rw [onceCharge]
  cases hlabel : label n with
  | none => simp
  | some l' =>
    simp only
    split_ifs with hmem
    · refine ⟨.inl, ?_⟩
      rintro (h | h)
      · exact h
      · obtain rfl := Option.some.inj h
        exact hmem
    · rw [List.mem_cons, Option.some.injEq, or_comm, eq_comm]

omit [DecidableEq ν] in
/-- The labels that have been paid for. -/
theorem mem_seenAfter (seen : List κ) (w : List ν) (l : κ) :
    l ∈ seenAfter (onceCharge label extra base) seen w ↔ l ∈ seen ∨ ∃ n ∈ w, label n = some l := by
  induction w generalizing seen with
  | nil => simp [seenAfter]
  | cons m w ih =>
    have h := ih (onceCharge label extra base seen m).2
    rw [seenAfter] at h ⊢
    rw [List.foldl_cons, h, mem_onceCharge]
    simp [or_assoc]

/-- A walk enters a label at a node: no node before has it. -/
def EntersAt (next : ν → List ν) (seed : ν) (label : ν → Option κ) (l : κ) (n : ν) : Prop :=
  label n = some l ∧ ∃ w, Walk next seed w n ∧ ∀ m ∈ w, label m ≠ some l

/-- **No label that is still to be paid for is entered at two nodes**, unless there is nothing to
pay. -/
def EntersOnce (next : ν → List ν) (seed : ν) (label : ν → Option κ) (extra : ν → ℚ)
    (seen : List κ) : Prop :=
  ∀ l n n', l ∉ seen → EntersAt next seed label l n → EntersAt next seed label l n' →
    n = n' ∨ extra n = 0

/-- **A node is charged at least what it is charged on a walk** if labels are entered once. -/
theorem onceCharge_le {dag : Dag ν} {init : ℚ} (hsearch : SearchInvariant next seed [] dag)
    (hextra : ∀ n, 0 ≤ extra n) (honce : EntersOnce next seed label extra seen) {w : List ν} {n : ν}
    {pre : List (ν × ℚ)} {v : ℚ} (hw : Walk next seed w n)
    (hpre : Processed dag (onceCharge label extra base) seed init seen pre)
    (hn : Settled dag (onceCharge label extra base) seed init seen pre n v) :
    (onceCharge label extra base (seenAfter (onceCharge label extra base) seen w) n).1 ≤
      (onceCharge label extra base
        (seenAfter (onceCharge label extra base) seen (pre.map Prod.fst)) n).1 := by
  have hpos := hextra n
  simp only [onceCharge]
  cases hlabel : label n with
  | none => exact le_rfl
  | some l =>
    simp only [mem_seenAfter]
    by_cases hwalk : l ∈ seen ∨ ∃ m ∈ w, label m = some l
    · rw [if_pos hwalk]
      split_ifs <;> simp [hpos]
    · rw [if_neg hwalk]
      obtain ⟨hseen, hnone⟩ := not_or.mp hwalk
      split_ifs with hprev
      · -- the label has been paid for at another node, the first one that has it
        obtain ⟨x, hx, hxl⟩ := hprev.resolve_left hseen
        obtain ⟨⟨m, u⟩, hm, rfl⟩ := List.mem_map.mp hx
        obtain ⟨before, ⟨m, u⟩, after, hsplit, hml, hfirst⟩ :=
          exists_first (P := fun q : ν × ℚ => label q.1 = some l) ⟨(m, u), hm, hxl⟩
        obtain ⟨w', hw', hbefore⟩ := hpre.exists_walk hsearch hsplit
        have hentry : EntersAt next seed label l m := by
          refine ⟨hml, w', hw', fun y hy => ?_⟩
          obtain ⟨q, hq, rfl⟩ := List.mem_map.mp (hbefore y hy)
          exact hfirst q hq
        have hself : EntersAt next seed label l n :=
          ⟨hlabel, w, hw, fun y hy hyl => hnone ⟨y, hy, hyl⟩⟩
        rcases honce l n m hseen hself hentry with heq | hzero
        · have hmem : (n, u) ∈ pre := by simp [hsplit, heq]
          exact absurd (List.mem_map_of_mem hmem) hn.fresh
        · simp [hzero]
      · exact le_rfl

variable (base) in
/-- **The propagation is worst-case** for charges that are paid once, if the breadth-first order is
a topological order and no label is entered twice. -/
theorem propagate_worst_case (hnodup : ∀ n, (next n).Nodup) {U : Finset ν} (hseed : seed ∈ U)
    (hU : ∀ n ∈ U, ∀ m ∈ next n, m ∈ U) {fuel : ℕ} (hfuel : 1 + ∑ n ∈ U, (next n).length ≤ fuel)
    (hextra : ∀ n, 0 ≤ extra n) (htopological : OrderIsTopological next fuel seed)
    (honce : EntersOnce next seed label extra seen) (init : ℚ) {w : List ν} {n : ν}
    (hw : Walk next seed w n) :
    ∃ v, (n, v) ∈ propagate next (onceCharge label extra base) fuel seed init seen ∧
      init + walkCost (onceCharge label extra base) seen (w ++ [n]) ≤ v := by
  obtain ⟨hsearch, hrun, hall⟩ :=
    propagate_spec hnodup hseed hU hfuel (onceCharge label extra base) init seen
  exact hrun.le_of_walk hsearch hall htopological
    (fun hw hpre hn => onceCharge_le hsearch hextra honce hw hpre hn) hw

end Once

end Bao.Graph.Propagation
