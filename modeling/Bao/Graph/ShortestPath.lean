import Mathlib

/-!
# Shortest paths in a graph with ordered nodes

The nodes are numbered and every arc goes from a lower to a higher number. Relaxing the arcs in the
order of their sources then labels each node with the length of a shortest path from node `0`, and
following the recorded arcs back gives such a path.

Lengths may be negative, and there may be several arcs between two nodes.

* **Relaxation** (`relax`, `relaxAll`): what the labels satisfy is `Labelled`, kept by one more arc
  of a source not below the earlier ones (`Labelled.relax`).
* **Bounds** (`Labelled.le_length`): a label is at most the length of any path.
* **Backtracking** (`Labelled.backtrack`): the recorded arcs form a path of that length.
-/

namespace Bao.Graph.ShortestPath

variable {E K : Type*}

/-- Arcs with their ends and lengths. -/
structure Arcs (E K : Type*) where
  src : E → ℕ
  dst : E → ℕ
  weight : E → K

variable (G : Arcs E K)

/-- A path: arcs of a list that join up from one node to another. -/
def IsPath (arcs : List E) : ℕ → ℕ → List E → Prop
  | a, b, [] => a = b
  | a, b, e :: path => e ∈ arcs ∧ G.src e = a ∧ IsPath arcs (G.dst e) b path

variable {G} in
theorem IsPath.mem {arcs path : List E} {a b : ℕ} (h : IsPath G arcs a b path) :
    ∀ e ∈ path, e ∈ arcs := by
  induction path generalizing a with
  | nil => simp
  | cons e path ih => exact List.forall_mem_cons.mpr ⟨h.1, ih h.2.2⟩

/-- The length found so far for each node, with the arc it was reached by. -/
abbrev Labels (E K : Type*) := ℕ → Option (K × Option E)

/-- The arcs that the labels of a node lead back along, in front of a given path. -/
def backtrack (labels : Labels E K) : ℕ → ℕ → List E → List E
  | 0, _, path => path
  | fuel + 1, n, path =>
    match labels n with
    | some (_, some e) => backtrack labels fuel (G.src e) (e :: path)
    | _ => path

section Length

variable [AddCommGroup K]

/-- The length of a path. -/
def length (path : List E) : K := (path.map G.weight).sum

@[simp] theorem length_nil : length G [] = 0 := rfl

@[simp] theorem length_cons (e : E) (path : List E) :
    length G (e :: path) = G.weight e + length G path := by simp [length]

variable [LinearOrder K]

/-- Relaxes one arc. -/
def relax (labels : Labels E K) (e : E) : Labels E K :=
  match labels (G.src e) with
  | none => labels
  | some (d, _) =>
    match labels (G.dst e) with
    | some (old, _) =>
      if d + G.weight e < old then
        Function.update labels (G.dst e) (some (d + G.weight e, some e))
      else labels
    | none => Function.update labels (G.dst e) (some (d + G.weight e, some e))

/-- No node but the start is labelled. -/
def initial : Labels E K := Function.update (fun _ => none) 0 (some (0, none))

/-- The labels after some arcs were relaxed. -/
structure Labelled (relaxed : List E) (labels : Labels E K) : Prop where
  start : labels 0 = some (0, none)
  /-- Only the start has no arc. -/
  eq_start : ∀ n d, labels n = some (d, none) → n = 0
  /-- A label is the label at the source of its arc plus the arc's length. -/
  sound : ∀ n d e, labels n = some (d, some e) → e ∈ relaxed ∧ G.dst e = n ∧
    ∃ d' o, labels (G.src e) = some (d', o) ∧ d = d' + G.weight e
  /-- No relaxed arc improves a label. -/
  relaxed : ∀ e ∈ relaxed, ∀ d o, labels (G.src e) = some (d, o) →
    ∃ d' o', labels (G.dst e) = some (d', o') ∧ d' ≤ d + G.weight e

variable {G} {arcs : List E} {labels : Labels E K}

theorem labelled_initial : Labelled G [] (initial : Labels E K) := by
  have hinitial : ∀ (n : ℕ) d (o : Option E), initial n = some (d, o) → n = 0 ∧ d = (0 : K) ∧
      o = none := by
    intro n d o h
    by_cases hn : n = 0
    · subst hn
      simp only [initial, Function.update_self, Option.some.injEq, Prod.mk.injEq] at h
      exact ⟨rfl, h.1.symm, h.2.symm⟩
    · simp [initial, Function.update_of_ne hn] at h
  exact ⟨by simp [initial], fun n d h => (hinitial n d none h).1,
    fun n d e h => by simpa using (hinitial n d _ h).2.2, by simp⟩

/-- What relaxing an arc does: nothing, if the arc improves no label, or it labels its end. -/
theorem relax_cases (labels : Labels E K) (e : E) :
    (relax G labels e = labels ∧ ∀ d o, labels (G.src e) = some (d, o) →
        ∃ d' o', labels (G.dst e) = some (d', o') ∧ d' ≤ d + G.weight e) ∨
      ∃ d o, labels (G.src e) = some (d, o) ∧
        relax G labels e = Function.update labels (G.dst e) (some (d + G.weight e, some e)) ∧
        ∀ d' o', labels (G.dst e) = some (d', o') → d + G.weight e < d' := by
  rw [relax]
  cases hsrc : labels (G.src e) with
  | none => exact .inl ⟨rfl, by simp⟩
  | some l =>
    cases hdst : labels (G.dst e) with
    | none => exact .inr ⟨l.1, l.2, rfl, rfl, by simp⟩
    | some l' =>
      by_cases hlt : l.1 + G.weight e < l'.1
      · refine .inr ⟨l.1, l.2, rfl, if_pos hlt, fun d' o' h => ?_⟩
        rw [← (Prod.mk.inj (Option.some.inj h)).1]
        exact hlt
      · refine .inl ⟨if_neg hlt, fun d o h => ⟨l'.1, l'.2, rfl, ?_⟩⟩
        rw [← (Prod.mk.inj (Option.some.inj h)).1]
        exact not_lt.mp hlt

/-- **One more arc.** No arc relaxed so far leaves its end. -/
theorem Labelled.relax (h : Labelled G arcs labels) {e : E}
    (hlt : G.src e < G.dst e) (hsorted : ∀ e' ∈ arcs, G.src e' ≤ G.src e) :
    Labelled G (arcs ++ [e]) (ShortestPath.relax G labels e) := by
  rcases relax_cases (G := G) labels e with ⟨heq, hno⟩ | ⟨d, o, hsrc, heq, himproves⟩
  · rw [heq]
    refine ⟨h.start, h.eq_start, fun n d e' hn => ?_, fun e' he' => ?_⟩
    · obtain ⟨hmem, hrest⟩ := h.sound n d e' hn
      exact ⟨List.mem_append_left _ hmem, hrest⟩
    · rcases List.mem_append.mp he' with he' | he'
      · exact h.relaxed e' he'
      · rw [List.mem_singleton.mp he']
        exact hno
  · -- the sources of all arcs keep their labels
    have hkeep : ∀ n ≤ G.src e, ShortestPath.relax G labels e n = labels n := fun n hn => by
      rw [heq, Function.update_of_ne (by omega)]
    have hself : ShortestPath.relax G labels e (G.dst e) = some (d + G.weight e, some e) := by
      rw [heq, Function.update_self]
    have hother : ∀ n, n ≠ G.dst e → ShortestPath.relax G labels e n = labels n := fun n hn => by
      rw [heq, Function.update_of_ne hn]
    refine ⟨by rw [hkeep 0 (Nat.zero_le _), h.start], fun n d' hn => ?_, fun n d' e' hn => ?_,
      fun e' he' d' o' hd' => ?_⟩
    · by_cases hdst : n = G.dst e
      · rw [hdst, hself] at hn
        simp at hn
      · exact h.eq_start n d' (hother n hdst ▸ hn)
    · by_cases hdst : n = G.dst e
      · rw [hdst, hself] at hn
        obtain ⟨rfl, he⟩ := Prod.mk.inj (Option.some.inj hn)
        obtain rfl : e = e' := Option.some.inj he
        exact ⟨by simp, hdst.symm, d, o, by rw [hkeep _ le_rfl, hsrc], rfl⟩
      · rw [hother n hdst] at hn
        obtain ⟨hmem, hd, d'', o'', hsrc', hsum⟩ := h.sound n d' e' hn
        exact ⟨List.mem_append_left _ hmem, hd, d'', o'', by rw [hkeep _ (hsorted e' hmem), hsrc'],
          hsum⟩
    · rcases List.mem_append.mp he' with he' | he'
      · rw [hkeep _ (hsorted e' he')] at hd'
        obtain ⟨d'', o'', hdst', hle⟩ := h.relaxed e' he' d' o' hd'
        by_cases hdst : G.dst e' = G.dst e
        · refine ⟨_, _, hdst ▸ hself, (himproves d'' o'' (hdst ▸ hdst')).le.trans hle⟩
        · exact ⟨d'', o'', by rw [hother _ hdst, hdst'], hle⟩
      · obtain rfl := List.mem_singleton.mp he'
        rw [hkeep _ le_rfl, hsrc] at hd'
        obtain ⟨rfl, -⟩ := Prod.mk.inj (Option.some.inj hd')
        exact ⟨_, _, hself, le_rfl⟩

/-- **All arcs, in the order of their sources.** -/
theorem labelled_foldl (hlt : ∀ e ∈ arcs, G.src e < G.dst e)
    (hsorted : arcs.Pairwise fun e e' => G.src e ≤ G.src e') :
    Labelled G arcs (arcs.foldl (relax G) (initial : Labels E K)) := by
  induction arcs using List.reverseRecOn with
  | nil => exact labelled_initial
  | append_singleton arcs e ih =>
    obtain ⟨hpairs, -, hlast⟩ := List.pairwise_append.mp hsorted
    rw [List.foldl_concat]
    exact (ih (fun e' he' => hlt e' (List.mem_append_left _ he')) hpairs).relax
      (hlt e (by simp)) fun e' he' => hlast e' he' e (by simp)

section Ordered

variable [IsOrderedAddMonoid K]

/-- **A label is at most the length of any path.** -/
theorem Labelled.le_length (h : Labelled G arcs labels) {a b : ℕ} {path : List E}
    (hpath : IsPath G arcs a b path) {d : K} {o : Option E} (ha : labels a = some (d, o)) :
    ∃ d' o', labels b = some (d', o') ∧ d' ≤ d + length G path := by
  induction path generalizing a d o with
  | nil =>
    obtain rfl : a = b := hpath
    exact ⟨d, o, ha, by simp⟩
  | cons e path ih =>
    obtain ⟨he, hsrc, hrest⟩ := hpath
    obtain ⟨d', o', hdst, hle⟩ := h.relaxed e he d o (hsrc ▸ ha)
    obtain ⟨d'', o'', hb, hle'⟩ := ih hrest hdst
    refine ⟨d'', o'', hb, hle'.trans ?_⟩
    rw [length_cons, ← add_assoc]
    gcongr

end Ordered

/-- **Backtracking** turns a path from a labelled node into a path from the start, as long as the
label says. -/
theorem Labelled.backtrack (h : Labelled G arcs labels) (hlt : ∀ e ∈ arcs, G.src e < G.dst e)
    {fuel n b : ℕ} {path : List E} {d : K} {o : Option E} (hfuel : n ≤ fuel)
    (hn : labels n = some (d, o)) (hpath : IsPath G arcs n b path) :
    IsPath G arcs 0 b (ShortestPath.backtrack G labels fuel n path) ∧
      length G (ShortestPath.backtrack G labels fuel n path) = d + length G path := by
  induction fuel generalizing n path d o with
  | zero =>
    obtain rfl : n = 0 := by omega
    rw [h.start] at hn
    obtain ⟨rfl, -⟩ := Prod.mk.inj (Option.some.inj hn)
    exact ⟨hpath, (zero_add _).symm⟩
  | succ fuel ih =>
    cases o with
    | none =>
      obtain rfl := h.eq_start n d hn
      rw [h.start] at hn
      obtain ⟨rfl, -⟩ := Prod.mk.inj (Option.some.inj hn)
      rw [ShortestPath.backtrack, h.start]
      exact ⟨hpath, (zero_add _).symm⟩
    | some e =>
      -- the last arc leads back to a smaller node, so the fuel lasts
      obtain ⟨he, hdst, d', o', hsrc, hsum⟩ := h.sound n d e hn
      have hlt' := hlt e he
      have hpath : IsPath G arcs (G.src e) b (e :: path) := ⟨he, rfl, hdst ▸ hpath⟩
      obtain ⟨hresult, hlength⟩ := ih (by omega) hsrc hpath
      rw [ShortestPath.backtrack, hn]
      refine ⟨hresult, hlength.trans ?_⟩
      rw [length_cons, hsum, add_assoc]

end Length

end Bao.Graph.ShortestPath
