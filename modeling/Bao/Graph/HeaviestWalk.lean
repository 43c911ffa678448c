import Mathlib

/-!
# Heaviest walks in finite directed graphs

A walk from a start vertex to `b` is given by the vertices before `b` (`WalkTo`); its weight is
the initial weight of its first vertex plus the weights of the vertices before `b`. A finite
graph may have infinitely many walks to `b`. If their weights are bounded, going round a cycle
gains nothing, so a walk without repeated vertices is at least as heavy as any given one
(`WalkTo.exists_nodup`), and a heaviest walk exists (`WalkTo.exists_heaviest`).
-/

namespace Bao.Graph

universe u

variable {α : Type u} {r : α → α → Prop} {start : α → Prop}

/-- `l` followed by `b` is a walk whose first vertex is a start vertex. -/
structure WalkTo (r : α → α → Prop) (start : α → Prop) (l : List α) (b : α) : Prop where
  chain : List.IsChain r (l ++ [b])
  head : start ((l ++ [b]).head (by simp))

/-- A start vertex is reached by the empty walk. -/
theorem WalkTo.nil {b : α} (hb : start b) : WalkTo r start [] b :=
  ⟨List.isChain_singleton b, hb⟩

/-- The last step of a walk. -/
theorem WalkTo.snoc {l : List α} {b c : α} (h : WalkTo r start l b) (hbc : r b c) :
    WalkTo r start (l ++ [b]) c := by
  refine ⟨?_, ?_⟩
  · refine List.isChain_append.mpr ⟨h.chain, List.isChain_singleton c, ?_⟩
    intro x hx y hy
    obtain rfl : b = x := by simpa using hx
    obtain rfl : c = y := by simpa using hy
    exact hbc
  · rw [List.head_append_of_ne_nil (by simp)]
    exact h.head

/-- Every vertex before the end of a walk has a step from it. -/
theorem WalkTo.exists_step {l : List α} {b a : α} (h : WalkTo r start l b) (ha : a ∈ l) :
    ∃ c, r a c := by
  obtain ⟨s, t, rfl⟩ := List.append_of_mem ha
  have hchain := h.chain
  rw [List.append_assoc] at hchain
  have hrest := (List.isChain_append.mp hchain).2.1
  cases t with
  | nil => exact ⟨b, (List.isChain_cons_cons.mp hrest).1⟩
  | cons c t => exact ⟨c, (List.isChain_cons_cons.mp hrest).1⟩

/-- A list with repeats visits some vertex twice. -/
theorem exists_repeat {l : List α} (h : ¬l.Nodup) :
    ∃ c s m t, l = s ++ (c :: m ++ c :: t) := by
  induction l with
  | nil => exact absurd List.nodup_nil h
  | cons a l ih =>
    by_cases ha : a ∈ l
    · obtain ⟨m, t, rfl⟩ := List.append_of_mem ha
      exact ⟨a, [], m, t, rfl⟩
    · obtain ⟨c, s, m, t, rfl⟩ := ih fun hl => h (List.nodup_cons.mpr ⟨ha, hl⟩)
      exact ⟨c, a :: s, m, t, rfl⟩

/-- A cycle of a walk can be taken any number of times. -/
theorem WalkTo.pump {c b : α} {s m t : List α}
    (h : WalkTo r start (s ++ (c :: m ++ c :: t)) b) (n : ℕ) :
    WalkTo r start (s ++ ((List.replicate n (c :: m)).flatten ++ c :: t)) b := by
  have hchain := h.chain
  rw [List.append_assoc, List.append_assoc] at hchain
  obtain ⟨hs, hrest, hlink⟩ := List.isChain_append.mp hchain
  obtain ⟨hcycle, htail, hclose⟩ := List.isChain_append.mp hrest
  -- the part after `s`, with the cycle taken `n` times
  have hloop : ∀ n : ℕ, List.IsChain r
      ((List.replicate n (c :: m)).flatten ++ (c :: t ++ [b])) := by
    intro n
    induction n with
    | zero => simpa using htail
    | succ n ih =>
      rw [List.replicate_succ, List.flatten_cons, List.append_assoc]
      refine List.isChain_append.mpr ⟨hcycle, ih, fun x hx y hy => hclose x hx y ?_⟩
      cases n with
      | zero => simpa using hy
      | succ n => simpa [List.replicate_succ] using hy
  have hhead : ∀ n : ℕ, ((List.replicate n (c :: m)).flatten ++ (c :: t ++ [b])).head? =
      some c := by
    intro n
    cases n with
    | zero => simp
    | succ n => simp [List.replicate_succ]
  refine ⟨?_, ?_⟩
  · rw [List.append_assoc, List.append_assoc]
    refine List.isChain_append.mpr ⟨hs, hloop n, fun x hx y hy => hlink x hx y ?_⟩
    rw [hhead n] at hy
    simpa using hy
  · have hstart := h.head
    cases s with
    | nil =>
      have heq := hhead n
      rw [← List.append_assoc, List.head?_eq_some_head (by simp)] at heq
      simp only [List.nil_append]
      rw [Option.some.inj heq]
      simpa using hstart
    | cons a s => simpa using hstart

section Weight

variable {K : Type*} [AddCommGroup K] [LinearOrder K] [IsOrderedAddMonoid K]

/-- The weight of a walk to `b`: the initial weight of its first vertex and the weights of the
vertices before `b`. -/
def walkWeight (init w : α → K) (l : List α) (b : α) : K :=
  init ((l ++ [b]).head (by simp)) + (l.map w).sum

omit [LinearOrder K] [IsOrderedAddMonoid K] in
theorem walkWeight_snoc (init w : α → K) (l : List α) (b c : α) :
    walkWeight init w (l ++ [b]) c = walkWeight init w l b + w b := by
  rw [walkWeight, walkWeight, List.head_append_of_ne_nil (by simp), List.map_append,
    List.sum_append, ← add_assoc]
  simp

variable [Archimedean K] {init w : α → K} {b : α} {B : K}

/-- Removing a cycle from a walk does not lower its weight if the weights of walks are bounded. -/
theorem WalkTo.weight_le_of_cycle (hB : ∀ l, WalkTo r start l b → walkWeight init w l b ≤ B)
    {c : α} {s m t : List α} (h : WalkTo r start (s ++ (c :: m ++ c :: t)) b) :
    walkWeight init w (s ++ (c :: m ++ c :: t)) b ≤ walkWeight init w (s ++ c :: t) b := by
  have hhead : ∀ n : ℕ, ((s ++ ((List.replicate n (c :: m)).flatten ++ c :: t)) ++ [b]).head
      (by simp) = ((s ++ c :: t) ++ [b]).head (by simp) := by
    intro n
    cases s with
    | nil =>
      cases n with
      | zero => simp
      | succ n => simp [List.replicate_succ]
    | cons a s => simp
  have hsum : ∀ n : ℕ, (((List.replicate n (c :: m)).flatten).map w).sum =
      n • ((c :: m).map w).sum := by
    intro n
    induction n with
    | zero => simp
    | succ n ih =>
      rw [List.replicate_succ, List.flatten_cons, List.map_append, List.sum_append, ih,
        succ_nsmul, add_comm]
  have hweight : ∀ n : ℕ, walkWeight init w
      (s ++ ((List.replicate n (c :: m)).flatten ++ c :: t)) b =
      walkWeight init w (s ++ c :: t) b + n • ((c :: m).map w).sum := by
    intro n
    rw [walkWeight, walkWeight, hhead n, List.map_append, List.map_append, List.sum_append,
      List.sum_append, hsum n, List.map_append, List.sum_append]
    abel
  have hone := hweight 1
  rw [List.replicate_one, List.flatten_singleton, one_nsmul] at hone
  rw [hone]
  -- a cycle of positive weight, taken often enough, exceeds the bound
  suffices hcycle : ((c :: m).map w).sum ≤ 0 from add_le_of_nonpos_right hcycle
  by_contra hpos
  obtain ⟨n, hn⟩ := Archimedean.arch
    (B - walkWeight init w (s ++ c :: t) b + 1 • ((c :: m).map w).sum) (not_le.mp hpos)
  have hle := hB _ (h.pump n)
  rw [hweight n] at hle
  have hlt : B - walkWeight init w (s ++ c :: t) b < n • ((c :: m).map w).sum := by
    refine lt_of_lt_of_le ?_ hn
    rw [one_nsmul]
    exact lt_add_of_pos_right _ (not_le.mp hpos)
  exact absurd hle (not_le.mpr (sub_lt_iff_lt_add'.mp hlt))

/-- A walk without repeated vertices is at least as heavy as a given one. -/
theorem WalkTo.exists_nodup (hB : ∀ l, WalkTo r start l b → walkWeight init w l b ≤ B)
    {l : List α} (h : WalkTo r start l b) :
    ∃ l', WalkTo r start l' b ∧ l'.Nodup ∧ walkWeight init w l b ≤ walkWeight init w l' b := by
  induction hn : l.length using Nat.strong_induction_on generalizing l with
  | _ n ih =>
    by_cases hnd : l.Nodup
    · exact ⟨l, h, hnd, le_rfl⟩
    · obtain ⟨c, s, m, t, rfl⟩ := exists_repeat hnd
      have hshort : WalkTo r start (s ++ c :: t) b := by simpa using h.pump 0
      obtain ⟨l', hl', hnd', hle⟩ := ih (s ++ c :: t).length
        (by rw [← hn]; simp) hshort rfl
      exact ⟨l', hl', hnd', (WalkTo.weight_le_of_cycle hB h).trans hle⟩

/-- **A heaviest walk exists** if there is a walk at all, the graph is finite and the weights of
the walks are bounded. -/
theorem WalkTo.exists_heaviest {S : List α} (hS : ∀ a c, r a c → a ∈ S) (hb : b ∈ S)
    (hB : ∀ l, WalkTo r start l b → walkWeight init w l b ≤ B)
    (hex : ∃ l, WalkTo r start l b) :
    ∃ l, WalkTo r start l b ∧
      ∀ l', WalkTo r start l' b → walkWeight init w l' b ≤ walkWeight init w l b := by
  classical
  -- a walk without repeats weighs the initial weight of a vertex plus a sum over a set
  let weights : Finset K := (S.toFinset ×ˢ S.toFinset.powerset).image
    fun p => init p.1 + p.2.sum w
  have hmem : ∀ l, WalkTo r start l b → l.Nodup → walkWeight init w l b ∈ weights := by
    intro l hl hnd
    have hsub : ∀ a ∈ l, a ∈ S := by
      intro a ha
      obtain ⟨c, hac⟩ := hl.exists_step ha
      exact hS a c hac
    refine Finset.mem_image.mpr ⟨((l ++ [b]).head (by simp), l.toFinset), ?_, ?_⟩
    · refine Finset.mem_product.mpr ⟨?_, Finset.mem_powerset.mpr fun a ha => ?_⟩
      · have hhead : (l ++ [b]).head (by simp) ∈ l ++ [b] := List.head_mem _
        rcases List.mem_append.mp hhead with h | h
        · exact List.mem_toFinset.mpr (hsub _ h)
        · rw [List.mem_toFinset, List.mem_singleton.mp h]
          exact hb
      · exact List.mem_toFinset.mpr (hsub a (List.mem_toFinset.mp ha))
    · simp only [walkWeight]
      rw [List.sum_toFinset w hnd]
  let reached : Finset K := weights.filter fun q =>
    ∃ l, WalkTo r start l b ∧ walkWeight init w l b = q
  have hne : reached.Nonempty := by
    obtain ⟨l, hl⟩ := hex
    obtain ⟨l', hl', hnd, -⟩ := WalkTo.exists_nodup hB hl
    exact ⟨_, Finset.mem_filter.mpr ⟨hmem l' hl' hnd, l', hl', rfl⟩⟩
  obtain ⟨l, hl, hmax⟩ := (Finset.mem_filter.mp (reached.max'_mem hne)).2
  refine ⟨l, hl, fun l' hl' => ?_⟩
  obtain ⟨l'', hl'', hnd, hle⟩ := WalkTo.exists_nodup hB hl'
  rw [hmax]
  exact hle.trans (reached.le_max' _ (Finset.mem_filter.mpr ⟨hmem l'' hl'' hnd, l'', hl'', rfl⟩))

end Weight

end Bao.Graph
