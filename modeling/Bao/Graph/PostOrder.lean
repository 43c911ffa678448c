import Mathlib.Data.List.Nodup
import Mathlib.Logic.Relation

/-!
# Reverse post-order

A depth-first search from an entry vertex lists every vertex when all its successors are visited
(`postVisit`); the reversed list is the **reverse post-order** of the vertices reachable from the
entry. It starts with the entry and lists each reachable vertex once (`mem_reversePostOrder`).

The search is fuelled. One unit of fuel for each vertex is enough, since every nested call has
marked one vertex more.
-/

namespace Bao.Graph

variable {α : Type*} [DecidableEq α]

/-- The state of the search: the visited vertices, and the finished ones in the order in which they
were finished. -/
structure PostOrder (α : Type*) where
  visited : List α := []
  order : List α := []

/-- Visits a vertex: its successors first, then the vertex itself is finished. -/
def postVisit (next : α → List α) : ℕ → PostOrder α → α → PostOrder α
  | 0, st, _ => st
  | n + 1, st, b =>
    if b ∈ st.visited then st
    else
      let st' := (next b).foldl (postVisit next n) { st with visited := b :: st.visited }
      { st' with order := st'.order ++ [b] }

/-- **The reverse post-order** of the vertices reachable from `entry`. -/
def reversePostOrder (next : α → List α) (vertices : List α) (entry : α) : List α :=
  (postVisit next (vertices.length + 1) {} entry).order.reverse

section Search

variable {next : α → List α}

/-- What a search from some roots does: it finishes vertices that were not visited before, each of
them reachable from a root, and visits the successors of each. -/
structure Finishes (next : α → List α) (st : PostOrder α) (roots : List α) (st' : PostOrder α)
    (new : List α) : Prop where
  order : st'.order = st.order ++ new
  visited : ∀ c, c ∈ st'.visited ↔ c ∈ st.visited ∨ c ∈ new
  fresh : ∀ c ∈ new, c ∉ st.visited
  nodup : new.Nodup
  closed : ∀ c ∈ new, ∀ d ∈ next c, d ∈ st'.visited
  reach : ∀ c ∈ new, ∃ b ∈ roots, Relation.ReflTransGen (fun x y => y ∈ next x) b c
  roots : ∀ b ∈ roots, b ∈ st'.visited

omit [DecidableEq α] in
theorem Finishes.nil (st : PostOrder α) : Finishes next st [] st [] :=
  ⟨by simp, by simp, by simp, List.nodup_nil, by simp, by simp, by simp⟩

omit [DecidableEq α] in
/-- One root after the other. -/
theorem Finishes.cons {st st₁ st₂ : PostOrder α} {b : α} {roots new₁ new₂ : List α}
    (h₁ : Finishes next st [b] st₁ new₁) (h₂ : Finishes next st₁ roots st₂ new₂) :
    Finishes next st (b :: roots) st₂ (new₁ ++ new₂) := by
  have hgrow : ∀ c ∈ st₁.visited, c ∈ st₂.visited := fun c hc => (h₂.visited c).mpr (.inl hc)
  refine ⟨by rw [h₂.order, h₁.order, List.append_assoc], fun c => ?_, fun c hc => ?_, ?_,
    fun c hc d hd => ?_, fun c hc => ?_, fun c hc => ?_⟩
  · rw [h₂.visited, h₁.visited, List.mem_append, or_assoc]
  · rcases List.mem_append.mp hc with hc | hc
    · exact h₁.fresh c hc
    · exact fun hst => h₂.fresh c hc ((h₁.visited c).mpr (.inl hst))
  · refine List.nodup_append.mpr ⟨h₁.nodup, h₂.nodup, fun c hc d hd hcd => ?_⟩
    exact h₂.fresh d hd ((h₁.visited d).mpr (.inr (hcd ▸ hc)))
  · rcases List.mem_append.mp hc with hc | hc
    · exact hgrow d (h₁.closed c hc d hd)
    · exact h₂.closed c hc d hd
  · rcases List.mem_append.mp hc with hc | hc
    · obtain ⟨r, hr, hreach⟩ := h₁.reach c hc
      exact ⟨r, List.mem_cons.mpr (.inl (List.mem_singleton.mp hr)), hreach⟩
    · obtain ⟨r, hr, hreach⟩ := h₂.reach c hc
      exact ⟨r, List.mem_cons_of_mem b hr, hreach⟩
  · rcases List.mem_cons.mp hc with rfl | hc
    · exact hgrow c (h₁.roots c (List.mem_singleton_self c))
    · exact h₂.roots c hc

omit [DecidableEq α] in
/-- A vertex is finished after its successors. -/
theorem Finishes.finish {st st' : PostOrder α} {b : α} {new : List α} (hb : b ∉ st.visited)
    (h : Finishes next { st with visited := b :: st.visited } (next b) st' new) :
    Finishes next st [b] { st' with order := st'.order ++ [b] } (new ++ [b]) := by
  have hvisited : ∀ c, c ∈ st'.visited ↔ c = b ∨ c ∈ st.visited ∨ c ∈ new := by
    intro c
    rw [h.visited, List.mem_cons, or_assoc]
  have hbnew : b ∉ new := fun hmem => h.fresh b hmem List.mem_cons_self
  refine ⟨by simp [h.order], fun c => ?_, fun c hc => ?_, ?_, fun c hc d hd => ?_, fun c hc => ?_,
    fun c hc => ?_⟩
  · rw [hvisited, List.mem_append, List.mem_singleton]
    tauto
  · rcases List.mem_append.mp hc with hc | hc
    · exact fun hst => h.fresh c hc (List.mem_cons_of_mem b hst)
    · rwa [List.mem_singleton.mp hc]
  · refine List.nodup_append.mpr ⟨h.nodup, List.nodup_singleton b, fun c hc d hd hcd => ?_⟩
    exact hbnew (List.mem_singleton.mp hd ▸ hcd ▸ hc)
  · rcases List.mem_append.mp hc with hc | hc
    · exact h.closed c hc d hd
    · exact h.roots d (List.mem_singleton.mp hc ▸ hd)
  · refine ⟨b, List.mem_singleton_self b, ?_⟩
    rcases List.mem_append.mp hc with hc | hc
    · obtain ⟨r, hr, hreach⟩ := h.reach c hc
      exact .head hr hreach
    · rw [List.mem_singleton.mp hc]
  · exact (hvisited c).mpr (.inl (List.mem_singleton.mp hc))

/-- The vertices that are still to be visited. -/
private def unvisited (vertices : List α) (st : PostOrder α) : ℕ :=
  (vertices.filter fun c => c ∉ st.visited).length

private theorem unvisited_mono {vertices : List α} {st st' : PostOrder α}
    (h : ∀ c ∈ st.visited, c ∈ st'.visited) : unvisited vertices st' ≤ unvisited vertices st := by
  refine List.Sublist.length_le (List.monotone_filter_right vertices fun c hc => ?_)
  simp only [decide_eq_true_eq] at hc ⊢
  exact fun hst => hc (h c hst)

private theorem unvisited_mark {vertices : List α} {st : PostOrder α} {b : α} (hb : b ∈ vertices)
    (hnew : b ∉ st.visited) :
    unvisited vertices { st with visited := b :: st.visited } < unvisited vertices st := by
  refine Nat.lt_of_le_of_ne (unvisited_mono fun c hc => List.mem_cons_of_mem b hc) fun heq => ?_
  -- a filter that keeps as many elements keeps the same ones, but `b` is gone
  have hsub : (vertices.filter fun c => c ∉ b :: st.visited).Sublist
      (vertices.filter fun c => c ∉ st.visited) := by
    refine List.monotone_filter_right vertices fun c hc => ?_
    simp only [decide_eq_true_eq] at hc ⊢
    exact fun hst => hc (List.mem_cons_of_mem b hst)
  have hmem : b ∈ vertices.filter fun c => c ∉ st.visited := by simp [hb, hnew]
  rw [← hsub.eq_of_length heq] at hmem
  simp at hmem

/-- **The contract of the search**: with fuel for the vertices that are still to be visited. -/
theorem postVisit_spec {vertices : List α} (hnext : ∀ b ∈ vertices, ∀ c ∈ next b, c ∈ vertices)
    (n : ℕ) {st : PostOrder α} {b : α} (hb : b ∈ vertices) (hn : unvisited vertices st < n) :
    ∃ new, Finishes next st [b] (postVisit next n st b) new := by
  induction n generalizing st b with
  | zero => omega
  | succ n ih =>
    rw [postVisit]
    split_ifs with hvisited
    · exact ⟨[], by simp, by simp, by simp, List.nodup_nil, by simp, by simp,
        by simpa using hvisited⟩
    · -- the successors one by one; what was visited stays visited, so the fuel suffices
      have hfold : ∀ (roots : List α) (st : PostOrder α), (∀ c ∈ roots, c ∈ vertices) →
          unvisited vertices st < n →
          ∃ new, Finishes next st roots (roots.foldl (postVisit next n) st) new := by
        intro roots
        induction roots with
        | nil => exact fun st _ _ => ⟨[], .nil st⟩
        | cons c roots ihr =>
          intro st hroots hst
          obtain ⟨new₁, h₁⟩ := ih (hroots c List.mem_cons_self) hst
          have hle : unvisited vertices (postVisit next n st c) ≤ unvisited vertices st :=
            unvisited_mono fun d hd => (h₁.visited d).mpr (.inl hd)
          obtain ⟨new₂, h₂⟩ := ihr (postVisit next n st c)
            (fun d hd => hroots d (List.mem_cons_of_mem c hd)) (by omega)
          exact ⟨new₁ ++ new₂, h₁.cons h₂⟩
      have hlt := unvisited_mark hb hvisited
      obtain ⟨new, h⟩ := hfold (next b) { st with visited := b :: st.visited } (hnext b hb)
        (by omega)
      exact ⟨new ++ [b], .finish hvisited h⟩

section Entry

variable {vertices : List α} {entry : α}
  (hnext : ∀ b ∈ vertices, ∀ c ∈ next b, c ∈ vertices) (hentry : entry ∈ vertices)
include hnext hentry

private theorem postVisit_entry :
    Finishes next {} [entry] (postVisit next (vertices.length + 1) {} entry)
      (reversePostOrder next vertices entry).reverse := by
  have hfuel : unvisited vertices {} < vertices.length + 1 :=
    Nat.lt_succ_of_le (List.length_filter_le _ _)
  obtain ⟨new, h⟩ := postVisit_spec hnext _ hentry hfuel
  have horder : (postVisit next (vertices.length + 1) {} entry).order = new := by
    simpa using h.order
  rw [reversePostOrder, List.reverse_reverse, horder]
  exact h

theorem nodup_reversePostOrder : (reversePostOrder next vertices entry).Nodup :=
  List.nodup_reverse.mp (postVisit_entry hnext hentry).nodup

/-- **The reverse post-order lists the vertices reachable from the entry.** -/
theorem mem_reversePostOrder {c : α} : c ∈ reversePostOrder next vertices entry ↔
    Relation.ReflTransGen (fun x y => y ∈ next x) entry c := by
  have h := postVisit_entry hnext hentry
  have hmem : ∀ d, d ∈ (postVisit next (vertices.length + 1) {} entry).visited ↔
      d ∈ reversePostOrder next vertices entry := by
    intro d
    rw [h.visited, List.mem_reverse]
    simp
  constructor
  · intro hc
    obtain ⟨b, hb, hreach⟩ := h.reach c (List.mem_reverse.mpr hc)
    rwa [List.mem_singleton.mp hb] at hreach
  · intro hreach
    induction hreach with
    | refl => exact (hmem entry).mp (h.roots entry (List.mem_singleton_self entry))
    | tail _ hstep ih => exact (hmem _).mp (h.closed _ (List.mem_reverse.mpr ih) _ hstep)

end Entry

/-- The reverse post-order starts with the entry. -/
theorem head?_reversePostOrder (next : α → List α) (vertices : List α) (entry : α) :
    (reversePostOrder next vertices entry).head? = some entry := by
  simp [reversePostOrder, postVisit]

end Search

end Bao.Graph
