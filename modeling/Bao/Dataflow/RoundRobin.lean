import Mathlib

/-!
# Round-robin iteration of a monotone transfer function

A dataflow problem over finitely many cells, each holding one bit. `sweep` visits the cells in
order and updates them in place; `solveFrom` repeats the sweep until nothing changes, and `solve`
starts it with all bits clear.

For a monotone transfer function one sweep for every cell, and one more, is enough
(`solveFrom_eq`). The result is a fixed point (`solveFrom_fixed`) and the least one: what holds of
every bit that is set at first or by the transfer function holds of every bit of the result
(`solveFrom_induction`).
-/

namespace Bao.Dataflow

universe u

variable {κ : Type u} [DecidableEq κ]

section Iteration

variable (f : (κ → Bool) → κ → Bool)

/-- Visit one cell: the second component records whether a cell has changed. -/
def visit (st : (κ → Bool) × Bool) (k : κ) : (κ → Bool) × Bool :=
  if f st.1 k ≠ st.1 k then (Function.update st.1 k (f st.1 k), true) else st

/-- Visit the cells in order. -/
def sweep (cells : List κ) (s : κ → Bool) : (κ → Bool) × Bool :=
  cells.foldl (visit f) (s, false)

/-- Sweep until nothing changes. `none` means that the fuel ran out. -/
def iterate (cells : List κ) : ℕ → (κ → Bool) → Option (κ → Bool)
  | 0, _ => none
  | n + 1, s => if (sweep f cells s).2 then iterate cells n (sweep f cells s).1
      else some (sweep f cells s).1

/-- The iteration from given bits. -/
def solveFrom (cells : List κ) (init : κ → Bool) : κ → Bool :=
  (iterate f cells (cells.length + 1) init).getD init

/-- The iteration from all bits clear. -/
def solve (cells : List κ) : κ → Bool :=
  (iterate f cells (cells.length + 1) fun _ => false).getD fun _ => false

end Iteration

variable {f : (κ → Bool) → κ → Bool} {cells : List κ}

/-! ### One sweep -/

/-- A visit that changes nothing finds the cell at its transfer value. -/
theorem foldl_visit_unchanged {ks : List κ} {st : (κ → Bool) × Bool}
    (h : (ks.foldl (visit f) st).2 = false) :
    st.2 = false ∧ (ks.foldl (visit f) st).1 = st.1 ∧ ∀ k ∈ ks, f st.1 k = st.1 k := by
  induction ks generalizing st with
  | nil => exact ⟨h, rfl, by simp⟩
  | cons k ks ih =>
    obtain ⟨hflag, hsame, hfix⟩ := ih h
    have hk : f st.1 k = st.1 k := by
      by_contra hne
      simp [visit, hne] at hflag
    have hvisit : visit f st k = st := by simp [visit, hk]
    rw [hvisit] at hflag hsame hfix
    refine ⟨hflag, by rw [List.foldl_cons, hvisit, hsame], fun j hj => ?_⟩
    rcases List.mem_cons.mp hj with rfl | hj
    · exact hk
    · exact hfix j hj

/-- What a visit preserves holds after a sweep. -/
theorem foldl_visit_preserves {P : (κ → Bool) → Prop} {ks : List κ}
    (hstep : ∀ s, ∀ k ∈ ks, P s → P (Function.update s k (f s k)))
    {st : (κ → Bool) × Bool} (h : P st.1) : P (ks.foldl (visit f) st).1 := by
  induction ks generalizing st with
  | nil => exact h
  | cons k ks ih =>
    refine ih (fun s j hj => hstep s j (List.mem_cons_of_mem k hj)) ?_
    rw [visit]
    split_ifs
    · exact hstep st.1 k List.mem_cons_self h
    · exact h

/-! ### The result -/

/-- The iteration returns a fixed point. -/
theorem iterate_fixed {n : ℕ} {s t : κ → Bool} (h : iterate f cells n s = some t) :
    ∀ k ∈ cells, f t k = t k := by
  induction n generalizing s with
  | zero => simp [iterate] at h
  | succ n ih =>
    rw [iterate] at h
    split_ifs at h with hchanged
    · exact ih h
    · obtain ⟨-, hsame, hfix⟩ := foldl_visit_unchanged (by simpa [sweep] using hchanged)
      obtain rfl : _ = t := by simpa using h
      rw [sweep, hsame]
      exact hfix

/-- What a visit preserves holds of the result. -/
theorem iterate_preserves {P : (κ → Bool) → Prop}
    (hstep : ∀ s, ∀ k ∈ cells, P s → P (Function.update s k (f s k))) {n : ℕ} {s t : κ → Bool}
    (hs : P s) (h : iterate f cells n s = some t) : P t := by
  induction n generalizing s with
  | zero => simp [iterate] at h
  | succ n ih =>
    have hsweep : P (sweep f cells s).1 := foldl_visit_preserves hstep hs
    rw [iterate] at h
    split_ifs at h with hchanged
    · exact ih hsweep h
    · obtain rfl : _ = t := by simpa using h
      exact hsweep

/-! ### Fuel -/

/-- The transfer function is monotone. -/
def Monotone (f : (κ → Bool) → κ → Bool) : Prop :=
  ∀ s t, (∀ k, s k = true → t k = true) → ∀ k, f s k = true → f t k = true

/-- Every set bit is a bit the transfer function sets. -/
private def Rising (f : (κ → Bool) → κ → Bool) (cells : List κ) (s : κ → Bool) : Prop :=
  ∀ k ∈ cells, s k = true → f s k = true

/-- A visit that changes a cell sets its bit. -/
private theorem Rising.visit (hmono : Monotone f) {s : κ → Bool} (hs : Rising f cells s) {k : κ}
    (hk : k ∈ cells) (hne : f s k ≠ s k) :
    s k = false ∧ Function.update s k (f s k) = Function.update s k true ∧
      Rising f cells (Function.update s k true) := by
  have hclear : s k = false := by
    by_contra hset
    have hset' : s k = true := by simpa using hset
    exact hne ((hs k hk hset').trans hset'.symm)
  have hnew : f s k = true := by simpa [hclear] using hne
  have hle : ∀ j, s j = true → Function.update s k true j = true := by
    intro j hj
    by_cases hjk : j = k
    · rw [hjk, Function.update_self]
    · rwa [Function.update_of_ne hjk]
  refine ⟨hclear, by rw [hnew], fun j hj hset => ?_⟩
  by_cases hjk : j = k
  · exact hmono s _ hle j (hjk ▸ hnew)
  · rw [Function.update_of_ne hjk] at hset
    exact hmono s _ hle j (hs j hj hset)

/-- Setting a clear bit of a cell raises the number of set bits. -/
private theorem countP_update_lt {s : κ → Bool} {k : κ} (hk : k ∈ cells) (hs : s k = false) :
    cells.countP s < cells.countP (Function.update s k true) := by
  have hle : ∀ ks : List κ, ks.countP s ≤ ks.countP (Function.update s k true) := by
    intro ks
    refine List.countP_mono_left fun j _ hj => ?_
    by_cases hjk : j = k
    · rw [hjk, Function.update_self]
    · rwa [Function.update_of_ne hjk]
  obtain ⟨pre, post, rfl⟩ := List.append_of_mem hk
  have hpre := hle pre
  have hpost := hle post
  rw [List.countP_append, List.countP_append, List.countP_cons, List.countP_cons, hs,
    Function.update_self]
  simp only [Bool.false_eq_true, if_false, if_true]
  omega

/-- A sweep that changes a cell raises the number of set bits. -/
private theorem foldl_visit_rising (hmono : Monotone f) {ks : List κ} (hks : ∀ k ∈ ks, k ∈ cells)
    {st : (κ → Bool) × Bool} (hst : Rising f cells st.1) :
    Rising f cells (ks.foldl (visit f) st).1 ∧
      cells.countP st.1 ≤ cells.countP (ks.foldl (visit f) st).1 ∧
      ((ks.foldl (visit f) st).2 = true →
        st.2 = true ∨ cells.countP st.1 < cells.countP (ks.foldl (visit f) st).1) := by
  induction ks generalizing st with
  | nil => exact ⟨hst, le_rfl, .inl⟩
  | cons k ks ih =>
    have hk := hks k List.mem_cons_self
    have hks' : ∀ j ∈ ks, j ∈ cells := fun j hj => hks j (List.mem_cons_of_mem k hj)
    rw [List.foldl_cons, visit]
    split_ifs with hne
    · obtain ⟨hclear, hup, hrise⟩ := hst.visit hmono hk hne
      rw [hup]
      obtain ⟨hres, hle, -⟩ := ih hks' (show Rising f cells (_, true).1 from hrise)
      have hlt := (countP_update_lt hk hclear).trans_le hle
      exact ⟨hres, hlt.le, fun _ => .inr hlt⟩
    · exact ih hks' hst

private theorem iterate_isSome (hmono : Monotone f) {n : ℕ} {s : κ → Bool}
    (hs : Rising f cells s) (hn : cells.length < n + cells.countP s) :
    (iterate f cells n s).isSome := by
  induction n generalizing s with
  | zero =>
    have hle : cells.countP s ≤ cells.length := List.countP_le_length
    omega
  | succ n ih =>
    rw [iterate]
    split_ifs with hchanged
    · obtain ⟨hres, -, hlt⟩ := foldl_visit_rising hmono (fun k hk => hk)
        (show Rising f cells (s, false).1 from hs)
      have hlt' := (hlt hchanged).resolve_left (by simp)
      refine ih hres ?_
      simp only at hlt'
      rw [sweep]
      omega
    · rfl

/-- **One sweep for every cell, and one more, is enough**, if the transfer function keeps the bits
that are set at first. -/
theorem solveFrom_eq (hmono : Monotone f) {init : κ → Bool}
    (hinit : ∀ k ∈ cells, init k = true → f init k = true) :
    iterate f cells (cells.length + 1) init = some (solveFrom f cells init) := by
  have hsome : (iterate f cells (cells.length + 1) init).isSome :=
    iterate_isSome hmono hinit (by omega)
  obtain ⟨t, ht⟩ := Option.isSome_iff_exists.mp hsome
  rw [solveFrom, ht, Option.getD_some]

/-- **The result is a fixed point.** -/
theorem solveFrom_fixed (hmono : Monotone f) {init : κ → Bool}
    (hinit : ∀ k ∈ cells, init k = true → f init k = true) :
    ∀ k ∈ cells, f (solveFrom f cells init) k = solveFrom f cells init k :=
  iterate_fixed (solveFrom_eq hmono hinit)

/-- **The result is the least fixed point** above the bits that are set at first. -/
theorem solveFrom_induction (hmono : Monotone f) {init : κ → Bool}
    (hinit : ∀ k ∈ cells, init k = true → f init k = true) {P : κ → Prop}
    (hstart : ∀ k, init k = true → P k)
    (hstep : ∀ s : κ → Bool, (∀ k, s k = true → P k) → ∀ k ∈ cells, f s k = true → P k) {k : κ}
    (hk : solveFrom f cells init k = true) : P k := by
  refine iterate_preserves (P := fun s => ∀ k, s k = true → P k) (fun s j hj hs i hi => ?_)
    hstart (solveFrom_eq hmono hinit) k hk
  by_cases hij : i = j
  · subst hij
    rw [Function.update_self] at hi
    exact hstep s hs i hj hi
  · rw [Function.update_of_ne hij] at hi
    exact hs i hi

/-! ### From all bits clear -/

theorem solve_eq (hmono : Monotone f) (cells : List κ) :
    iterate f cells (cells.length + 1) (fun _ => false) = some (solve f cells) :=
  solveFrom_eq hmono fun _ _ hk => absurd hk Bool.false_ne_true

theorem solve_fixed (hmono : Monotone f) : ∀ k ∈ cells, f (solve f cells) k = solve f cells k :=
  iterate_fixed (solve_eq hmono cells)

theorem solve_induction (hmono : Monotone f) {P : κ → Prop}
    (hstep : ∀ s : κ → Bool, (∀ k, s k = true → P k) → ∀ k ∈ cells, f s k = true → P k) {k : κ}
    (hk : solve f cells k = true) : P k :=
  solveFrom_induction hmono (fun _ _ hk => absurd hk Bool.false_ne_true)
    (fun _ hk => absurd hk Bool.false_ne_true) hstep hk

end Bao.Dataflow
