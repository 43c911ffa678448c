import Mathlib

/-!
# Walks, potentials and reachability in finite directed graphs

General facts about directed graphs given by a relation or by successor lists. A walk is a
list whose consecutive entries are related (`List.IsChain`).

* **Potentials** (`IsChain.potential_le`): if every step `b → c` of a walk satisfies
  `f b + w b ≤ f c`, the weights collected along the walk are bounded by the rise of `f`.
  A closed walk therefore collects no positive weight (`IsChain.closed_sum_nonpos`), and a
  strictly rising potential on a finite set supports induction (`potential_induction`), and
  so does an acyclic relation (`acyclic_induction`).
* **Reachability** (`closure`): the worklist computation of the forward closure of a set of
  start vertices, with the exact characterization `mem_closure_iff`.
-/

namespace Bao.Graph

universe u

variable {α : Type u}

/-! ### Potentials along walks -/

section Potential

variable {K : Type*} [AddCommGroup K] [LinearOrder K] [IsOrderedAddMonoid K]

/-- **Potential bound.** Along a walk whose steps raise `f` by at least the weight of their
source, the collected weight is bounded by the rise of `f` plus the last weight. -/
theorem IsChain.potential_le {f w : α → K} {a : α} {l : List α}
    (h : List.IsChain (fun b c => f b + w b ≤ f c) (a :: l)) :
    f a + ((a :: l).map w).sum ≤
      f ((a :: l).getLast (List.cons_ne_nil a l)) +
        w ((a :: l).getLast (List.cons_ne_nil a l)) := by
  induction l generalizing a with
  | nil => simp
  | cons b l ih =>
    obtain ⟨hab, htail⟩ := List.isChain_cons_cons.mp h
    have hrec := ih htail
    rw [List.getLast_cons (List.cons_ne_nil b l)]
    calc f a + ((a :: b :: l).map w).sum
        = f a + w a + ((b :: l).map w).sum := by
          rw [List.map_cons, List.sum_cons, add_assoc]
      _ ≤ f b + ((b :: l).map w).sum := by gcongr
      _ ≤ _ := hrec

/-- A closed walk whose every step raises the potential collects no positive weight. -/
theorem IsChain.closed_sum_nonpos {f w : α → K} {a : α} {l : List α}
    (h : List.IsChain (fun b c => f b + w b ≤ f c) (a :: l))
    (hclose : f ((a :: l).getLast (List.cons_ne_nil a l)) +
      w ((a :: l).getLast (List.cons_ne_nil a l)) ≤ f a) :
    ((a :: l).map w).sum ≤ 0 := by
  have hle := (IsChain.potential_le h).trans hclose
  exact (add_le_iff_nonpos_right (f a)).mp hle

end Potential

/-- **Induction along a potential.** On a finite set of vertices, a property that holds at
`b` whenever it holds at all vertices of smaller potential holds everywhere on the set. -/
theorem potential_induction {K : Type*} [LinearOrder K] {S : List α} {f : α → K} {P : α → Prop}
    (step : ∀ b ∈ S, (∀ c ∈ S, f c < f b → P c) → P b) : ∀ b ∈ S, P b := by
  classical
  intro b hb
  -- the number of vertices below `b` in the potential decreases
  induction hn : (S.toFinset.filter fun c => f c < f b).card using Nat.strong_induction_on
    generalizing b with
  | _ n ih =>
    refine step b hb fun c hc hlt => ?_
    refine ih _ ?_ c hc rfl
    rw [← hn]
    refine Finset.card_lt_card ⟨fun d hd => ?_, fun hsub => ?_⟩
    · rw [Finset.mem_filter] at hd ⊢
      exact ⟨hd.1, hd.2.trans hlt⟩
    · have hcb : c ∈ S.toFinset.filter fun d => f d < f b :=
        Finset.mem_filter.mpr ⟨List.mem_toFinset.mpr hc, hlt⟩
      exact lt_irrefl _ (Finset.mem_filter.mp (hsub hcb)).2

/-- **Induction along an acyclic relation.** On a finite set of vertices, a property that holds
at `b` whenever it holds at all predecessors of `b` holds everywhere on the set. -/
theorem acyclic_induction {S : List α} {r : α → α → Prop} {P : α → Prop}
    (hacyc : ∀ a, ¬Relation.TransGen r a a)
    (step : ∀ b ∈ S, (∀ c ∈ S, r c b → P c) → P b) : ∀ b ∈ S, P b := by
  classical
  -- the number of ancestors is a potential
  refine potential_induction (f := fun b => (S.toFinset.filter (Relation.TransGen r · b)).card)
    fun b hb ih => step b hb fun c hc hcb => ih c hc (Finset.card_lt_card ⟨?_, fun hsub => ?_⟩)
  · intro a ha
    rw [Finset.mem_filter] at ha ⊢
    exact ⟨ha.1, ha.2.tail hcb⟩
  · have hmem : c ∈ S.toFinset.filter (Relation.TransGen r · b) :=
      Finset.mem_filter.mpr ⟨List.mem_toFinset.mpr hc, .single hcb⟩
    exact hacyc c (Finset.mem_filter.mp (hsub hmem)).2

/-! ### Reachability by a worklist -/

section Closure

variable [DecidableEq α] (succs : α → List α)

/-- Push the vertices of a list that were not seen before: they join the seen set and the
worklist. -/
def pushNew (l seen work : List α) : List α × List α :=
  l.foldl (fun st s => if s ∈ st.1 then st else (s :: st.1, s :: st.2)) (seen, work)

/-- The worklist loop: pop a vertex, push its unseen successors. -/
def closeLoop : ℕ → List α → List α → List α
  | 0, seen, _ => seen
  | _ + 1, seen, [] => seen
  | n + 1, seen, cur :: work =>
    closeLoop n (pushNew (succs cur) seen work).1 (pushNew (succs cur) seen work).2

/-- The forward closure of `init`, with one round of the loop for each vertex. -/
def closure (vertices init : List α) : List α := closeLoop succs vertices.length init init

theorem pushNew_cons (s : α) (l seen work : List α) :
    pushNew (s :: l) seen work =
      if s ∈ seen then pushNew l seen work else pushNew l (s :: seen) (s :: work) := by
  rw [pushNew, List.foldl_cons]
  split_ifs with h
  · rfl
  · rfl

/-- What the loop maintains of a seen set and a worklist: unvisited vertices are seen, the
seen set has no repeats, and a seen vertex is waiting or has all its successors seen. -/
structure CloseInv (seen work : List α) : Prop where
  nodup : seen.Nodup
  work_subset : ∀ a ∈ work, a ∈ seen
  closed : ∀ a ∈ seen, a ∈ work ∨ ∀ b ∈ succs a, b ∈ seen

variable {succs}

/-- Pushing a list keeps what was seen, adds exactly the list, and moves the two lengths
together. -/
theorem pushNew_spec (l : List α) (seen work : List α) (hnd : seen.Nodup)
    (hsub : ∀ a ∈ work, a ∈ seen) :
    (pushNew l seen work).1.Nodup ∧
      (∀ a, a ∈ (pushNew l seen work).1 ↔ a ∈ seen ∨ a ∈ l) ∧
      (∀ a ∈ (pushNew l seen work).2, a ∈ (pushNew l seen work).1) ∧
      (∀ a ∈ work, a ∈ (pushNew l seen work).2) ∧
      (∀ a ∈ (pushNew l seen work).1, a ∈ seen ∨ a ∈ (pushNew l seen work).2) ∧
      (pushNew l seen work).1.length + work.length =
        (pushNew l seen work).2.length + seen.length := by
  induction l generalizing seen work with
  | nil => exact ⟨hnd, by simp [pushNew], hsub, fun _ h => h, fun _ h => .inl h, by
      simp [pushNew, Nat.add_comm]⟩
  | cons s l ih =>
    rw [pushNew_cons]
    split_ifs with hs
    · obtain ⟨h1, h2, h3, h4, h5, h6⟩ := ih seen work hnd hsub
      refine ⟨h1, fun a => ?_, h3, h4, h5, h6⟩
      rw [h2, List.mem_cons]
      constructor
      · rintro (h | h)
        · exact .inl h
        · exact .inr (.inr h)
      · rintro (h | rfl | h)
        · exact .inl h
        · exact .inl hs
        · exact .inr h
    · have hsub' : ∀ a ∈ s :: work, a ∈ s :: seen := by
        intro a ha
        rcases List.mem_cons.mp ha with rfl | ha
        · exact List.mem_cons_self
        · exact List.mem_cons_of_mem _ (hsub a ha)
      obtain ⟨h1, h2, h3, h4, h5, h6⟩ :=
        ih (s :: seen) (s :: work) (List.nodup_cons.mpr ⟨hs, hnd⟩) hsub'
      refine ⟨h1, fun a => ?_, h3, fun a ha => h4 a (List.mem_cons_of_mem _ ha), ?_, ?_⟩
      · rw [h2, List.mem_cons, List.mem_cons]
        tauto
      · intro a ha
        rcases h5 a ha with h | h
        · rcases List.mem_cons.mp h with rfl | h
          · exact .inr (h4 a List.mem_cons_self)
          · exact .inl h
        · exact .inr h
      · simp only [List.length_cons] at h6
        omega

/-- One round of the loop keeps the invariant. -/
theorem CloseInv.step {seen work : List α} {cur : α} (h : CloseInv succs seen (cur :: work)) :
    CloseInv succs (pushNew (succs cur) seen work).1 (pushNew (succs cur) seen work).2 := by
  obtain ⟨h1, h2, h3, h4, h5, -⟩ := pushNew_spec (succs cur) seen work h.nodup
    fun a ha => h.work_subset a (List.mem_cons_of_mem _ ha)
  refine ⟨h1, h3, fun a ha => ?_⟩
  rcases h5 a ha with hseen | hwork
  · rcases h.closed a hseen with hw | hs
    · rcases List.mem_cons.mp hw with rfl | hw
      · exact .inr fun b hb => (h2 b).mpr (.inr hb)
      · exact .inl (h4 a hw)
    · exact .inr fun b hb => (h2 b).mpr (.inl (hs b hb))
  · exact .inl hwork

/-- With one round for each vertex left to see, the loop ends with an empty worklist: its
result is closed under successors. -/
theorem closeLoop_closed {vertices : List α} (hsucc : ∀ a, ∀ b ∈ succs a, b ∈ vertices)
    (n : ℕ) (seen work : List α) (h : CloseInv succs seen work)
    (hvert : ∀ a ∈ seen, a ∈ vertices)
    (hn : work.length + vertices.length ≤ n + seen.length) :
    ∀ a ∈ closeLoop succs n seen work, ∀ b ∈ succs a, b ∈ closeLoop succs n seen work := by
  induction n generalizing seen work with
  | zero =>
    have hle : seen.length ≤ vertices.length :=
      (List.subperm_of_subset h.nodup hvert).length_le
    have hwork : work = [] := List.eq_nil_of_length_eq_zero (by omega)
    intro a ha b hb
    rcases h.closed a ha with hw | hs
    · simp [hwork] at hw
    · exact hs b hb
  | succ n ih =>
    cases work with
    | nil =>
      intro a ha b hb
      rcases h.closed a ha with hw | hs
      · simp at hw
      · exact hs b hb
    | cons cur work =>
      obtain ⟨-, h2, -, -, -, h6⟩ := pushNew_spec (succs cur) seen work h.nodup
        fun a ha => h.work_subset a (List.mem_cons_of_mem _ ha)
      refine ih _ _ h.step (fun a ha => ?_) ?_
      · rcases (h2 a).mp ha with hs | hs
        · exact hvert a hs
        · exact hsucc cur a hs
      · simp only [List.length_cons] at hn
        omega

/-- The loop never forgets a seen vertex. -/
theorem subset_closeLoop (n : ℕ) (seen work : List α) (h : CloseInv succs seen work) :
    ∀ a ∈ seen, a ∈ closeLoop succs n seen work := by
  induction n generalizing seen work with
  | zero => exact fun a ha => ha
  | succ n ih =>
    cases work with
    | nil => exact fun a ha => ha
    | cons cur work =>
      intro a ha
      refine ih _ _ h.step a ?_
      exact ((pushNew_spec (succs cur) seen work h.nodup
        fun b hb => h.work_subset b (List.mem_cons_of_mem _ hb)).2.1 a).mpr (.inl ha)

/-- Everything the loop sees is reachable from what it started with. -/
theorem closeLoop_reachable {init : List α} (n : ℕ) (seen work : List α)
    (h : CloseInv succs seen work)
    (hreach : ∀ a ∈ seen, ∃ i ∈ init, Relation.ReflTransGen (fun b c => c ∈ succs b) i a) :
    ∀ a ∈ closeLoop succs n seen work,
      ∃ i ∈ init, Relation.ReflTransGen (fun b c => c ∈ succs b) i a := by
  induction n generalizing seen work with
  | zero => exact hreach
  | succ n ih =>
    cases work with
    | nil => exact hreach
    | cons cur work =>
      refine ih _ _ h.step fun a ha => ?_
      rcases ((pushNew_spec (succs cur) seen work h.nodup
        fun b hb => h.work_subset b (List.mem_cons_of_mem _ hb)).2.1 a).mp ha with hs | hs
      · exact hreach a hs
      · obtain ⟨i, hi, hic⟩ := hreach cur (h.work_subset cur List.mem_cons_self)
        exact ⟨i, hi, hic.tail hs⟩

/-- **The worklist computes the forward closure**: exactly the vertices reachable from a
start vertex. -/
theorem mem_closure_iff {vertices init : List α}
    (hsucc : ∀ a, ∀ b ∈ succs a, b ∈ vertices) (hinit : ∀ a ∈ init, a ∈ vertices)
    (hnd : init.Nodup) {b : α} :
    b ∈ closure succs vertices init ↔
      ∃ a ∈ init, Relation.ReflTransGen (fun c d => d ∈ succs c) a b := by
  have hinv : CloseInv succs init init := ⟨hnd, fun _ h => h, fun _ h => .inl h⟩
  constructor
  · exact closeLoop_reachable _ _ _ hinv (fun a ha => ⟨a, ha, .refl⟩) b
  · rintro ⟨a, ha, hab⟩
    induction hab with
    | refl => exact subset_closeLoop _ _ _ hinv a ha
    | tail _ hcd ih =>
      exact closeLoop_closed hsucc _ _ _ hinv hinit (by omega) _ ih _ hcd

end Closure

end Bao.Graph
