import Mathlib

/-!
# Depth-first search for the most expensive path to a target

A depth-first search computes, for every vertex it visits, the cost of the most expensive
path to a fixed target vertex, memoized, with `-1` for vertices that do not reach the target.
The search stops at the target. A vertex met while it is still being visited raises the flag
`cycleDetected` and counts as not reaching the target.

* `dfs` is the search with fuel; `dfs_isSome` shows that one unit of fuel for each vertex is
  enough.
* `dfs_spec` is its contract: visited vertices stay visited with their value, and if no cycle
  was detected the memoized values form a **potential**: for every successor `c` of a visited
  vertex `b` with a non-negative value, `cost b + value c ≤ memo b` (`Potential`).
-/

namespace Bao.Graph

universe u

/-- The mark of a vertex. -/
inductive VisitState
  | unvisited
  | visiting
  | visited
  deriving DecidableEq, Repr

/-- The state of the search. -/
structure DfsState (α : Type u) where
  visitState : α → VisitState
  memo : α → ℚ
  bestSucc : α → Option α
  cycleDetected : Bool

variable {α : Type u}

/-- The state before the search. -/
def DfsState.init : DfsState α := ⟨fun _ => .unvisited, fun _ => 0, fun _ => none, false⟩

variable [DecidableEq α]

/-- Set the mark of a vertex. -/
def DfsState.mark (st : DfsState α) (b : α) (v : VisitState) : DfsState α :=
  { st with visitState := Function.update st.visitState b v }

/-- Leave a vertex: mark it visited and record its value and best successor. -/
def DfsState.finish (st : DfsState α) (b : α) (value : ℚ) (best : Option α) : DfsState α where
  visitState := Function.update st.visitState b .visited
  memo := Function.update st.memo b value
  bestSucc := if best.isSome then Function.update st.bestSucc b best else st.bestSucc
  cycleDetected := st.cycleDetected

/-- The loop over the successors of a vertex: keep the best non-negative value. -/
def scan (visit : DfsState α → α → Option (DfsState α × ℚ)) :
    List α → DfsState α → ℚ → Option α → Option (DfsState α × ℚ × Option α)
  | [], st, bestEnergy, best => some (st, bestEnergy, best)
  | c :: cs, st, bestEnergy, best =>
    match visit st c with
    | none => none
    | some (st', e) =>
      if e < 0 then scan visit cs st' bestEnergy best
      else if bestEnergy < e then scan visit cs st' e (some c)
      else scan visit cs st' bestEnergy best

section Search

variable (next : α → List α) (cost : α → ℚ) (target : α)

/-- The search from a vertex. `none` means that the fuel ran out. -/
def dfs : ℕ → DfsState α → α → Option (DfsState α × ℚ)
  | 0, _, _ => none
  | n + 1, st, b =>
    if b = target then some (st, cost b)
    else match st.visitState b with
      | .visiting => some ({ st with cycleDetected := true }, -1)
      | .visited => some (st, st.memo b)
      | .unvisited =>
        match scan (dfs n) (next b) (st.mark b .visiting) (-1) none with
        | none => none
        | some (st', _, none) => some (st'.finish b (-1) none, -1)
        | some (st', bestEnergy, some c) =>
          some (st'.finish b (cost b + bestEnergy) (some c), cost b + bestEnergy)

/-- The value the search assigns to a vertex it has finished. -/
def value (st : DfsState α) (c : α) : ℚ := if c = target then cost c else st.memo c

/-- A vertex the search is done with. -/
def Done (st : DfsState α) (c : α) : Prop := c = target ∨ st.visitState c = .visited

/-- **Best successors** lead to the target and attain the values: along them some rank
decreases, so following them from a vertex with a value ends at the target. -/
def Linked (st : DfsState α) : Prop :=
  ∃ rank : α → ℕ, ∀ b, st.visitState b = .visited → 0 ≤ st.memo b →
    ∃ c ∈ next b, st.bestSucc b = some c ∧ Done target st c ∧
      (0 ≤ value cost target st c ∧ st.memo b = cost b + value cost target st c) ∧
      (c ≠ target → rank c < rank b)

/-- **Potential.** The values of visited vertices dominate every path to the target: the value
of a visited vertex is at least its cost plus the value of any successor that has one. -/
def Potential (st : DfsState α) : Prop :=
  ∀ b, st.visitState b = .visited → ∀ c ∈ next b, Done target st c ∧
    (0 ≤ value cost target st c → cost b + value cost target st c ≤ st.memo b)

end Search

/-! ### What the search preserves -/

/-- Later states of a search: finished vertices keep their value, the vertices being visited
are the same, and a detected cycle is remembered. -/
structure DfsState.Extends (st st' : DfsState α) : Prop where
  visited : ∀ c, st.visitState c = .visited →
    st'.visitState c = .visited ∧ st'.memo c = st.memo c ∧ st'.bestSucc c = st.bestSucc c
  visiting : ∀ c, st'.visitState c = .visiting ↔ st.visitState c = .visiting
  cycle : st.cycleDetected = true → st'.cycleDetected = true

omit [DecidableEq α] in
theorem DfsState.Extends.refl (st : DfsState α) : st.Extends st :=
  ⟨fun _ h => ⟨h, rfl, rfl⟩, fun _ => Iff.rfl, fun h => h⟩

omit [DecidableEq α] in
theorem DfsState.Extends.trans {st₁ st₂ st₃ : DfsState α} (h₁ : st₁.Extends st₂)
    (h₂ : st₂.Extends st₃) : st₁.Extends st₃ := by
  refine ⟨fun c hc => ?_, fun c => (h₂.visiting c).trans (h₁.visiting c),
    fun hc => h₂.cycle (h₁.cycle hc)⟩
  obtain ⟨hv, hm, hbest⟩ := h₁.visited c hc
  obtain ⟨hv', hm', hbest'⟩ := h₂.visited c hv
  exact ⟨hv', hm'.trans hm, hbest'.trans hbest⟩

variable {next : α → List α} {cost : α → ℚ} {target : α}

variable (cost) in
theorem Done.extends {st st' : DfsState α} {c : α} (hc : Done target st c)
    (h : st.Extends st') :
    Done target st' c ∧ value cost target st' c = value cost target st c := by
  rcases hc with rfl | hc
  · exact ⟨.inl rfl, by simp [value]⟩
  · obtain ⟨hv, hm, -⟩ := h.visited c hc
    exact ⟨.inr hv, by simp only [value, hm]⟩

/-- The contract of one visit. -/
structure Visit (next : α → List α) (cost : α → ℚ) (target : α) (st : DfsState α) (b : α)
    (st' : DfsState α) (e : ℚ) : Prop where
  extend : st.Extends st'
  potential : (st.cycleDetected = false → Potential next cost target st) →
    st'.cycleDetected = false → Potential next cost target st'
  linked : Linked next cost target st → Linked next cost target st'
  done : st'.cycleDetected = false ∨ 0 ≤ e → Done target st' b ∧ e = value cost target st' b

omit [DecidableEq α] in
/-- A best successor, once found, is not forgotten. -/
theorem scan_some_ne_none (visit : DfsState α → α → Option (DfsState α × ℚ)) (cs : List α)
    {st st' : DfsState α} {be be' : ℚ} {c : α} {bo' : Option α}
    (h : scan visit cs st be (some c) = some (st', be', bo')) : bo' ≠ none := by
  induction cs generalizing st be c with
  | nil =>
    simp only [scan, Option.some.injEq, Prod.mk.injEq] at h
    obtain ⟨-, -, rfl⟩ := h
    simp
  | cons d cs ih =>
    rw [scan] at h
    cases hv : visit st d with
    | none => simp [hv] at h
    | some r =>
      obtain ⟨st₁, e⟩ := r
      rw [hv] at h
      simp only at h
      split_ifs at h
      · exact ih h
      · exact ih h
      · exact ih h

/-- What the successor loop establishes, from the state `st` with best energy `be` to the
state `st'` with best energy `be'` and best successor `bo'`. -/
structure Scan (next : α → List α) (cost : α → ℚ) (target : α) (cs : List α)
    (st : DfsState α) (be : ℚ) (bo : Option α) (st' : DfsState α) (be' : ℚ)
    (bo' : Option α) : Prop where
  extend : st.Extends st'
  potential : (st.cycleDetected = false → Potential next cost target st) →
    st'.cycleDetected = false → Potential next cost target st'
  linked : Linked next cost target st → Linked next cost target st'
  le : be ≤ be'
  none_eq : bo' = none → be' = be
  best : ∀ c, bo' = some c → bo = some c ∧ be' = be ∨
    c ∈ cs ∧ Done target st' c ∧ 0 ≤ value cost target st' c ∧ be' = value cost target st' c
  dominates : st'.cycleDetected = false → ∀ c ∈ cs, Done target st' c ∧
    (0 ≤ value cost target st' c → value cost target st' c ≤ be')

/-- **The successor loop** keeps the contract: it finishes every vertex of the list and its
best energy dominates their values. -/
theorem scan_spec {visit : DfsState α → α → Option (DfsState α × ℚ)}
    (hvisit : ∀ st c st' e, visit st c = some (st', e) → Visit next cost target st c st' e)
    (cs : List α) {st st' : DfsState α} {be be' : ℚ} {bo bo' : Option α}
    (h : scan visit cs st be bo = some (st', be', bo')) :
    Scan next cost target cs st be bo st' be' bo' := by
  induction cs generalizing st be bo with
  | nil =>
    simp only [scan, Option.some.injEq, Prod.mk.injEq] at h
    obtain ⟨rfl, rfl, rfl⟩ := h
    exact ⟨.refl st, fun hp => hp, fun hl => hl, le_rfl, fun _ => rfl,
      fun c hc => .inl ⟨hc, rfl⟩, fun _ c hc => absurd hc (by simp)⟩
  | cons c cs ih =>
    rw [scan] at h
    cases hv : visit st c with
    | none => simp [hv] at h
    | some r =>
      obtain ⟨st₁, e⟩ := r
      rw [hv] at h
      have hc := hvisit st c st₁ e hv
      -- the loop continues in `st₁`, with the old best or with `c`
      have hcont : ∃ be₁ bo₁, scan visit cs st₁ be₁ bo₁ = some (st', be', bo') ∧ be ≤ be₁ ∧
          (0 ≤ e → e ≤ be₁) ∧ (be₁ = be ∧ bo₁ = bo ∨ 0 ≤ e ∧ be₁ = e ∧ bo₁ = some c) := by
        simp only at h
        split_ifs at h with hneg hlt
        · exact ⟨be, bo, h, le_rfl, fun he => absurd hneg (not_lt.mpr he), .inl ⟨rfl, rfl⟩⟩
        · exact ⟨e, some c, h, hlt.le, fun _ => le_rfl, .inr ⟨not_lt.mp hneg, rfl, rfl⟩⟩
        · exact ⟨be, bo, h, le_rfl, fun _ => not_lt.mp hlt, .inl ⟨rfl, rfl⟩⟩
      obtain ⟨be₁, bo₁, hscan, hle₁, he₁, hbest₁⟩ := hcont
      have hrest := ih hscan
      refine ⟨hc.extend.trans hrest.extend,
        fun hp hcyc => hrest.potential (fun h₁ => hc.potential hp h₁) hcyc,
        fun hl => hrest.linked (hc.linked hl), hle₁.trans hrest.le, fun hbo => ?_,
        fun d hd => ?_, fun hcyc d hd => ?_⟩
      · rcases hbest₁ with ⟨rfl, -⟩ | ⟨-, -, rfl⟩
        · exact hrest.none_eq hbo
        · exact absurd hbo (scan_some_ne_none visit cs hscan)
      · rcases hrest.best d hd with ⟨hbo, hbe⟩ | ⟨hmem, hdone⟩
        · rcases hbest₁ with ⟨rfl, rfl⟩ | ⟨hnn, rfl, rfl⟩
          · exact .inl ⟨hbo, hbe⟩
          · obtain rfl : c = d := by simpa using hbo
            obtain ⟨hdone, hval⟩ := hc.done (.inr hnn)
            obtain ⟨hdone', hval'⟩ := hdone.extends cost hrest.extend
            refine .inr ⟨List.mem_cons_self, hdone', ?_, ?_⟩
            · rwa [hval', ← hval]
            · rw [hval', ← hval, hbe]
        · exact .inr ⟨List.mem_cons_of_mem c hmem, hdone⟩
      · have hcyc₁ : st₁.cycleDetected = false := by
          by_contra hne
          have := hrest.extend.cycle (by simpa using hne)
          rw [hcyc] at this
          exact absurd this (by simp)
        rcases List.mem_cons.mp hd with rfl | hd
        · obtain ⟨hdone, hval⟩ := hc.done (.inl hcyc₁)
          obtain ⟨hdone', hval'⟩ := hdone.extends cost hrest.extend
          refine ⟨hdone', fun hnn => ?_⟩
          rw [hval', ← hval] at hnn ⊢
          exact (he₁ hnn).trans hrest.le
        · exact hrest.dominates hcyc d hd

/-! ### Entering and leaving a vertex -/

section Finish

variable {st st' : DfsState α} {b : α} {v be : ℚ} {best : Option α}

private theorem visitState_mark {c : α} (hc : c ≠ b) :
    (st.mark b .visiting).visitState c = st.visitState c := Function.update_of_ne hc _ _

/-- A vertex that is visited after `b` was entered is not `b`, and was visited before. -/
private theorem visited_of_mark {c : α} (hc : (st.mark b .visiting).visitState c = .visited) :
    c ≠ b ∧ st.visitState c = .visited := by
  have hne : c ≠ b := fun heq => by simp [DfsState.mark, heq] at hc
  exact ⟨hne, visitState_mark hne ▸ hc⟩

private theorem Done.mark {c : α} (hun : st.visitState b = .unvisited) (hc : Done target st c) :
    Done target (st.mark b .visiting) c := by
  refine hc.imp id fun hc => ?_
  rw [visitState_mark fun heq => by simp [heq, hun] at hc]
  exact hc

private theorem Potential.mark (hun : st.visitState b = .unvisited)
    (hp : Potential next cost target st) : Potential next cost target (st.mark b .visiting) := by
  intro a ha c hca
  obtain ⟨hd, hle⟩ := hp a (visited_of_mark ha).2 c hca
  exact ⟨hd.mark hun, hle⟩

private theorem Linked.mark (hun : st.visitState b = .unvisited)
    (hl : Linked next cost target st) : Linked next cost target (st.mark b .visiting) := by
  obtain ⟨rank, hrank⟩ := hl
  refine ⟨rank, fun a ha hnn => ?_⟩
  obtain ⟨c, hc, hbs, hd, hrest⟩ := hrank a (visited_of_mark ha).2 hnn
  exact ⟨c, hc, hbs, hd.mark hun, hrest⟩

variable (v best) in
private theorem finish_of_ne {c : α} (hc : c ≠ b) :
    (st.finish b v best).visitState c = st.visitState c ∧
      (st.finish b v best).memo c = st.memo c ∧
      (st.finish b v best).bestSucc c = st.bestSucc c := by
  refine ⟨Function.update_of_ne hc _ _, Function.update_of_ne hc _ _, ?_⟩
  cases best with
  | none => rfl
  | some d => exact Function.update_of_ne hc _ _

private theorem finish_self : (st.finish b v best).visitState b = .visited ∧
    (st.finish b v best).memo b = v :=
  ⟨Function.update_self _ _ _, Function.update_self _ _ _⟩

omit [DecidableEq α] in
/-- A vertex that is still being visited is not among the finished ones. -/
private theorem ne_of_visited {c : α} (hb : st.visitState b = .visiting)
    (hc : st.visitState c = .visited) : c ≠ b := by
  intro heq
  rw [heq, hb] at hc
  exact absurd hc (by simp)

variable (cost v best) in
private theorem Done.finish {c : α} (hb : st.visitState b = .visiting) (hc : Done target st c) :
    Done target (st.finish b v best) c ∧
      value cost target (st.finish b v best) c = value cost target st c := by
  rcases hc with rfl | hc
  · exact ⟨.inl rfl, by simp [value]⟩
  · obtain ⟨h1, h2, -⟩ := finish_of_ne v best (ne_of_visited hb hc)
    exact ⟨.inr (h1.trans hc), by simp only [value, h2]⟩

private theorem DfsState.Extends.finish (hext : (st.mark b .visiting).Extends st')
    (hun : st.visitState b = .unvisited) : st.Extends (st'.finish b v best) := by
  refine ⟨fun c hc => ?_, fun c => ?_, fun hc => hext.cycle hc⟩
  · have hne : c ≠ b := fun heq => by simp [heq, hun] at hc
    obtain ⟨h1, h2, h3⟩ := hext.visited c ((visitState_mark hne).trans hc)
    obtain ⟨h4, h5, h6⟩ := @finish_of_ne _ _ st' _ v best _ hne
    exact ⟨h4.trans h1, h5.trans h2, h6.trans h3⟩
  · by_cases hne : c = b
    · rw [hne, finish_self.1, hun]
      simp
    · rw [(finish_of_ne v best hne).1, hext.visiting c, visitState_mark hne]

/-- The value of the vertex that is left dominates its successors. -/
private theorem Potential.finish (hb : st.visitState b = .visiting)
    (hp : Potential next cost target st)
    (hdom : ∀ c ∈ next b, Done target st c ∧
      (0 ≤ value cost target st c → cost b + value cost target st c ≤ v)) :
    Potential next cost target (st.finish b v best) := by
  intro a ha c hc
  have hself : Done target st c ∧ (0 ≤ value cost target st c →
      cost a + value cost target st c ≤ (st.finish b v best).memo a) := by
    by_cases hab : a = b
    · subst hab
      rw [finish_self.2]
      exact hdom c hc
    · rw [(finish_of_ne v best hab).1] at ha
      rw [(finish_of_ne v best hab).2.1]
      exact hp a ha c hc
  obtain ⟨hd', hval⟩ := hself.1.finish cost v best hb
  exact ⟨hd', by rw [hval]; exact hself.2⟩

/-- The vertex that is left gets a rank above the one of its best successor. -/
private theorem Linked.finish (hb : st.visitState b = .visiting)
    (hl : Linked next cost target st)
    (hbest : 0 ≤ v → ∃ c ∈ next b, best = some c ∧ Done target st c ∧
      0 ≤ value cost target st c ∧ v = cost b + value cost target st c) :
    Linked next cost target (st.finish b v best) := by
  obtain ⟨rank, hrank⟩ := hl
  refine ⟨Function.update rank b (rank (best.getD b) + 1), fun a ha hnn => ?_⟩
  by_cases hab : a = b
  · subst hab
    rw [finish_self.2] at hnn
    obtain ⟨c, hmem, rfl, hd, hval⟩ := hbest hnn
    obtain ⟨hd', hval'⟩ := hd.finish cost v (some c) hb
    refine ⟨c, hmem, Function.update_self _ _ _, hd', ?_, fun hct => ?_⟩
    · rw [finish_self.2, hval']
      exact hval
    · have hca : c ≠ a := ne_of_visited hb (hd.resolve_left hct)
      rw [Function.update_self, Function.update_of_ne hca]
      exact Nat.lt_succ_self _
  · obtain ⟨h1, h2, h3⟩ := @finish_of_ne _ _ st _ v best _ hab
    rw [h1] at ha
    rw [h2] at hnn
    obtain ⟨c, hc, hbs, hd, hval, hlt⟩ := hrank a ha hnn
    obtain ⟨hd', hval'⟩ := hd.finish cost v best hb
    refine ⟨c, hc, h3.trans hbs, hd', by rwa [h2, hval'], fun hct => ?_⟩
    have hcb : c ≠ b := ne_of_visited hb (hd.resolve_left hct)
    rw [Function.update_of_ne hab, Function.update_of_ne hcb]
    exact hlt hct

/-- Leaving a vertex after its successors are done keeps the contract. -/
private theorem visit_finish (hun : st.visitState b = .unvisited) (hb : b ≠ target)
    (hs : Scan next cost target (next b) (st.mark b .visiting) (-1) none st' be best)
    (hv : ∀ q, 0 ≤ q → q ≤ be → cost b + q ≤ v)
    (hbest : 0 ≤ v → ∃ c, best = some c ∧ v = cost b + be) :
    Visit next cost target st b (st'.finish b v best) v := by
  have hvisiting : st'.visitState b = .visiting :=
    (hs.extend.visiting b).mpr (Function.update_self _ _ _)
  refine ⟨hs.extend.finish hun, fun hp hcyc => ?_, fun hl => ?_,
    fun _ => ⟨.inr finish_self.1, by rw [value, if_neg hb, finish_self.2]⟩⟩
  · refine (hs.potential (fun hc => (hp hc).mark hun) hcyc).finish hvisiting fun c hc => ?_
    obtain ⟨hd, hle⟩ := hs.dominates hcyc c hc
    exact ⟨hd, fun hnn => hv _ hnn (hle hnn)⟩
  · refine (hs.linked (hl.mark hun)).finish hvisiting fun hnn => ?_
    obtain ⟨c, rfl, hv'⟩ := hbest hnn
    rcases hs.best c rfl with ⟨hbo, -⟩ | ⟨hmem, hd, hval, hbe⟩
    · exact absurd hbo (by simp)
    · exact ⟨c, hmem, rfl, hd, hval, hbe ▸ hv'⟩

end Finish

/-- **Contract of the search.** -/
theorem dfs_spec (n : ℕ) {st st' : DfsState α} {b : α} {e : ℚ}
    (h : dfs next cost target n st b = some (st', e)) : Visit next cost target st b st' e := by
  induction n generalizing st b st' e with
  | zero => simp [dfs] at h
  | succ n ih =>
    rw [dfs] at h
    split_ifs at h with hb
    · simp only [Option.some.injEq, Prod.mk.injEq] at h
      obtain ⟨rfl, rfl⟩ := h
      exact ⟨.refl st, fun hp => hp, fun hl => hl, fun _ => ⟨.inl hb, by simp [value, hb]⟩⟩
    · cases hs : st.visitState b with
      | visiting =>
        -- the vertex is open: a cycle, which the search records
        simp only [hs, Option.some.injEq, Prod.mk.injEq] at h
        obtain ⟨rfl, rfl⟩ := h
        exact ⟨⟨fun _ hc => ⟨hc, rfl, rfl⟩, fun _ => Iff.rfl, fun _ => rfl⟩,
          fun _ hc => by simp at hc, fun hl => hl, fun hc => by norm_num at hc⟩
      | visited =>
        simp only [hs, Option.some.injEq, Prod.mk.injEq] at h
        obtain ⟨rfl, rfl⟩ := h
        exact ⟨.refl st, fun hp => hp, fun hl => hl, fun _ => ⟨.inr hs, by simp [value, hb]⟩⟩
      | unvisited =>
        simp only [hs] at h
        cases hscan : scan (dfs next cost target n) (next b) (st.mark b .visiting) (-1) none with
        | none => simp [hscan] at h
        | some r =>
          obtain ⟨st₁, be, best⟩ := r
          have hsc := scan_spec (fun st c st' e hv => ih hv) _ hscan
          cases best with
          | none =>
            simp only [hscan, Option.some.injEq, Prod.mk.injEq] at h
            obtain ⟨rfl, rfl⟩ := h
            refine visit_finish hs hb hsc (fun q hq hle => ?_) fun hnn => by norm_num at hnn
            -- no successor had a value, so the best one is still -1
            rw [hsc.none_eq rfl] at hle
            linarith
          | some c =>
            simp only [hscan, Option.some.injEq, Prod.mk.injEq] at h
            obtain ⟨rfl, rfl⟩ := h
            exact visit_finish hs hb hsc (fun q _ hle => by linarith) fun _ => ⟨c, rfl, rfl⟩

/-- The search from the initial state: without a cycle the values form a potential and the
best successors lead to the target. -/
theorem dfs_init_spec {n : ℕ} {st' : DfsState α} {b : α} {e : ℚ}
    (h : dfs next cost target n .init b = some (st', e)) :
    Linked next cost target st' ∧ (st'.cycleDetected = false →
      Potential next cost target st' ∧ Done target st' b ∧ e = value cost target st' b) := by
  have hv := dfs_spec n h
  have hlinked : Linked next cost target DfsState.init :=
    ⟨fun _ => 0, fun b hb => absurd hb (by simp [DfsState.init])⟩
  refine ⟨hv.linked hlinked, fun hcyc => ⟨hv.potential (fun _ b hb => ?_) hcyc,
    hv.done (.inl hcyc)⟩⟩
  exact absurd hb (by simp [DfsState.init])

/-! ### Fuel -/

/-- The vertices that are not being visited. -/
private def idle (vertices : List α) (st : DfsState α) : List α :=
  vertices.filter fun c => st.visitState c ≠ .visiting

omit [DecidableEq α] in
private theorem idle_extends {vertices : List α} {st st' : DfsState α} (h : st.Extends st') :
    idle vertices st' = idle vertices st := by
  refine List.filter_congr fun c _ => ?_
  rw [decide_eq_decide]
  exact not_congr (h.visiting c)

private theorem idle_mark_lt {vertices : List α} {st : DfsState α} {b : α} (hb : b ∈ vertices)
    (hs : st.visitState b ≠ .visiting) :
    (idle vertices (st.mark b .visiting)).length < (idle vertices st).length := by
  have hsub : idle vertices (st.mark b .visiting) =
      (idle vertices st).filter fun c => c ≠ b := by
    rw [idle, idle, List.filter_filter]
    refine List.filter_congr fun c _ => ?_
    by_cases hc : c = b
    · simp [DfsState.mark, hc]
    · simp [DfsState.mark, hc]
  rw [hsub]
  refine List.length_filter_lt_length_iff_exists.mpr ⟨b, ?_, by simp⟩
  exact List.mem_filter.mpr ⟨hb, by simpa using hs⟩

private theorem dfs_isSome_of_idle {vertices : List α}
    (hnext : ∀ a ∈ vertices, ∀ c ∈ next a, c ∈ vertices)
    (n : ℕ) {st : DfsState α} {b : α} (hb : b ∈ vertices)
    (hn : (idle vertices st).length < n) : (dfs next cost target n st b).isSome := by
  induction n generalizing st b with
  | zero => omega
  | succ n ih =>
    rw [dfs]
    split_ifs with htarget
    · rfl
    · cases hs : st.visitState b with
      | visiting => rfl
      | visited => rfl
      | unvisited =>
        have hlt := idle_mark_lt hb (by simp [hs] : st.visitState b ≠ .visiting)
        -- the fuel that is left is enough for every successor in turn
        have hscan : ∀ cs : List α, (∀ c ∈ cs, c ∈ vertices) → ∀ (st₁ : DfsState α) be bo,
            (idle vertices st₁).length < n →
            (scan (dfs next cost target n) cs st₁ be bo).isSome := by
          intro cs
          induction cs with
          | nil => intro _ st₁ be bo _; rfl
          | cons c cs ihs =>
            intro hcs st₁ be bo hlen
            obtain ⟨r, hr⟩ := Option.isSome_iff_exists.mp (ih (hcs c List.mem_cons_self) hlen)
            obtain ⟨st₂, e⟩ := r
            have hlen₂ : (idle vertices st₂).length < n := by
              rwa [idle_extends (dfs_spec n hr).extend]
            have hrest := ihs (fun d hd => hcs d (List.mem_cons_of_mem c hd)) st₂
            rw [scan, hr]
            simp only
            split_ifs
            · exact hrest be bo hlen₂
            · exact hrest e (some c) hlen₂
            · exact hrest be bo hlen₂
        obtain ⟨r, hr⟩ := Option.isSome_iff_exists.mp
          (hscan (next b) (hnext b hb) (st.mark b .visiting) (-1) none (by omega))
        obtain ⟨st₁, be, best⟩ := r
        cases best with
        | none => simp [hr]
        | some c => simp [hr]

/-- **One unit of fuel for each vertex, and one more, is enough.** -/
theorem dfs_isSome {vertices : List α} (hnext : ∀ a ∈ vertices, ∀ c ∈ next a, c ∈ vertices)
    {n : ℕ} (hn : vertices.length < n) (st : DfsState α) {b : α} (hb : b ∈ vertices) :
    (dfs next cost target n st b).isSome :=
  dfs_isSome_of_idle hnext n hb ((List.length_filter_le _ vertices).trans_lt hn)

/-! ### Cycles -/

/-- **Ranked.** Along the edges between finished vertices some rank decreases. -/
def Ranked (next : α → List α) (target : α) (st : DfsState α) : Prop :=
  ∃ rank : α → ℕ, ∀ b, st.visitState b = .visited → ∀ c ∈ next b, c ≠ target →
    st.visitState c = .visited ∧ rank c < rank b

private theorem Ranked.mark {st : DfsState α} {b : α} (hun : st.visitState b = .unvisited)
    (hr : Ranked next target st) : Ranked next target (st.mark b .visiting) := by
  obtain ⟨rank, hrank⟩ := hr
  refine ⟨rank, fun a ha c hc hct => ?_⟩
  obtain ⟨hvisited, hlt⟩ := hrank a (visited_of_mark ha).2 c hc hct
  have hne : c ≠ b := fun heq => by simp [heq, hun] at hvisited
  exact ⟨(visitState_mark hne).trans hvisited, hlt⟩

/-- The vertex that is left gets a rank above all its successors. -/
private theorem Ranked.finish {st : DfsState α} {b : α} {v : ℚ} {best : Option α}
    (hb : st.visitState b = .visiting) (hr : Ranked next target st)
    (hdone : ∀ c ∈ next b, Done target st c) : Ranked next target (st.finish b v best) := by
  obtain ⟨rank, hrank⟩ := hr
  refine ⟨Function.update rank b (((next b).map rank).sum + 1), fun a ha c hc hct => ?_⟩
  by_cases hab : a = b
  · subst hab
    have hvisited := (hdone c hc).resolve_left hct
    have hne := ne_of_visited hb hvisited
    refine ⟨(finish_of_ne v best hne).1.trans hvisited, ?_⟩
    rw [Function.update_self, Function.update_of_ne hne]
    exact Nat.lt_succ_of_le (List.le_sum_of_mem (List.mem_map_of_mem hc))
  · rw [(finish_of_ne v best hab).1] at ha
    obtain ⟨hvisited, hlt⟩ := hrank a ha c hc hct
    have hne := ne_of_visited hb hvisited
    refine ⟨(finish_of_ne v best hne).1.trans hvisited, ?_⟩
    rwa [Function.update_of_ne hab, Function.update_of_ne hne]

omit [DecidableEq α] in
/-- The successor loop keeps the ranking if its visits do. -/
private theorem scan_ranked {visit : DfsState α → α → Option (DfsState α × ℚ)}
    (hvisit : ∀ st c st' e, visit st c = some (st', e) →
      (st.cycleDetected = false → Ranked next target st) → st'.cycleDetected = false →
        Ranked next target st')
    (cs : List α) {st st' : DfsState α} {be be' : ℚ} {bo bo' : Option α}
    (h : scan visit cs st be bo = some (st', be', bo'))
    (hr : st.cycleDetected = false → Ranked next target st)
    (hcyc : st'.cycleDetected = false) : Ranked next target st' := by
  induction cs generalizing st be bo with
  | nil =>
    simp only [scan, Option.some.injEq, Prod.mk.injEq] at h
    obtain ⟨rfl, -⟩ := h
    exact hr hcyc
  | cons c cs ih =>
    rw [scan] at h
    cases hv : visit st c with
    | none => simp [hv] at h
    | some r =>
      obtain ⟨st₁, e⟩ := r
      rw [hv] at h
      simp only at h
      split_ifs at h
      · exact ih h (hvisit st c st₁ e hv hr)
      · exact ih h (hvisit st c st₁ e hv hr)
      · exact ih h (hvisit st c st₁ e hv hr)

/-- **A search that detects no cycle ranks what it finishes.** -/
theorem dfs_ranked (n : ℕ) {st st' : DfsState α} {b : α} {e : ℚ}
    (h : dfs next cost target n st b = some (st', e))
    (hr : st.cycleDetected = false → Ranked next target st) (hcyc : st'.cycleDetected = false) :
    Ranked next target st' := by
  induction n generalizing st b st' e with
  | zero => simp [dfs] at h
  | succ n ih =>
    rw [dfs] at h
    split_ifs at h with hb
    · simp only [Option.some.injEq, Prod.mk.injEq] at h
      obtain ⟨rfl, -⟩ := h
      exact hr hcyc
    · cases hs : st.visitState b with
      | visiting =>
        simp only [hs, Option.some.injEq, Prod.mk.injEq] at h
        obtain ⟨rfl, -⟩ := h
        simp at hcyc
      | visited =>
        simp only [hs, Option.some.injEq, Prod.mk.injEq] at h
        obtain ⟨rfl, -⟩ := h
        exact hr hcyc
      | unvisited =>
        simp only [hs] at h
        cases hscan : scan (dfs next cost target n) (next b) (st.mark b .visiting) (-1) none with
        | none => simp [hscan] at h
        | some r =>
          obtain ⟨st₁, be, best⟩ := r
          have hsc := scan_spec (fun st c st' e hv => dfs_spec n hv) _ hscan
          have hvisiting : st₁.visitState b = .visiting :=
            (hsc.extend.visiting b).mpr (Function.update_self _ _ _)
          -- the vertex is ranked when it is left, above its finished successors
          have hleave : st₁.cycleDetected = false → ∀ v best,
              Ranked next target (st₁.finish b v best) := fun hcyc₁ v best =>
            (scan_ranked (fun st c st' e hv hr hc => ih hv hr hc) _ hscan
              (fun hc => (hr hc).mark hs) hcyc₁).finish hvisiting fun c hc =>
                (hsc.dominates hcyc₁ c hc).1
          cases best with
          | none =>
            simp only [hscan, Option.some.injEq, Prod.mk.injEq] at h
            obtain ⟨rfl, -⟩ := h
            exact hleave hcyc _ _
          | some c =>
            simp only [hscan, Option.some.injEq, Prod.mk.injEq] at h
            obtain ⟨rfl, -⟩ := h
            exact hleave hcyc _ _

/-- A step from a vertex other than the target. -/
def StepBefore (next : α → List α) (target a c : α) : Prop := a ≠ target ∧ c ∈ next a

/-- **A cycle is detected.** A search from the initial state that detects no cycle has found
none: no vertex it reaches before the target lies on a cycle that avoids the target. -/
theorem dfs_acyclic {n : ℕ} {st' : DfsState α} {b : α} {e : ℚ}
    (h : dfs next cost target n .init b = some (st', e)) (hcyc : st'.cycleDetected = false)
    {c : α} (hreach : Relation.ReflTransGen (StepBefore next target) b c) :
    ¬Relation.TransGen (StepBefore next target) c c := by
  obtain ⟨hpot, hdone, -⟩ := (dfs_init_spec h).2 hcyc
  obtain ⟨rank, hrank⟩ := dfs_ranked n h
    (fun _ => ⟨fun _ => 0, fun a ha => absurd ha (by simp [DfsState.init])⟩) hcyc
  have hstep : ∀ a c, Done target st' a → StepBefore next target a c →
      Done target st' c ∧ (c ≠ target → rank c < rank a) := fun a c ha hac =>
    have hvisited := ha.resolve_left hac.1
    ⟨(hpot a hvisited c hac.2).1, fun hct => (hrank a hvisited c hac.2 hct).2⟩
  have hall : ∀ {a c}, Done target st' a → Relation.ReflTransGen (StepBefore next target) a c →
      Done target st' c := by
    intro a c ha hac
    induction hac with
    | refl => exact ha
    | tail _ hcd ih => exact (hstep _ _ ih hcd).1
  -- along a walk that is left again, the rank decreases
  have hlt : ∀ {a c}, Done target st' a → Relation.TransGen (StepBefore next target) a c →
      c ≠ target → rank c < rank a := by
    intro a c ha hac
    induction hac with
    | single hac => exact (hstep _ _ ha hac).2
    | tail hac hcd ih =>
      intro hne
      exact ((hstep _ _ (hall ha hac.to_reflTransGen) hcd).2 hne).trans (ih hcd.1)
  intro hcycle
  obtain ⟨d, hcd, -⟩ := Relation.TransGen.head'_iff.mp hcycle
  exact lt_irrefl _ (hlt (hall hdone hreach) hcycle hcd.1)

/-! ### Two graphs -/

/-- The search depends on the successors of the vertices other than the target only. -/
theorem dfs_congr {next' : α → List α} (hnext : ∀ b, b ≠ target → next b = next' b) (n : ℕ) :
    dfs next cost target n = dfs next' cost target n := by
  induction n with
  | zero => rfl
  | succ n ih =>
    funext st b
    rw [dfs, dfs, ih]
    by_cases hb : b = target
    · rw [if_pos hb, if_pos hb]
    · rw [hnext b hb]

/-! ### Following the best successors -/

/-- The path along the best successors, up to the target. -/
def follow (target : α) (bestSucc : α → Option α) : ℕ → α → Option (List α)
  | 0, _ => none
  | n + 1, b =>
    if b = target then some [b]
    else match bestSucc b with
      | none => none
      | some c => (follow target bestSucc n c).map (b :: ·)

/-- A path to the target: it ends when it reaches the target. -/
structure IsPath (next : α → List α) (target b : α) (p : List α) : Prop where
  head : p.head? = some b
  last : p.getLast? = some target
  chain : List.IsChain (fun a c => a ≠ target ∧ c ∈ next a) p

omit [DecidableEq α] in
/-- The paths from a vertex other than the target start with a step to a successor. -/
theorem IsPath.exists_tail {b : α} {p : List α} (h : IsPath next target b p) (hb : b ≠ target) :
    ∃ c q, p = b :: q ∧ c ∈ next b ∧ IsPath next target c q := by
  obtain ⟨hhead, hlast, hchain⟩ := h
  match p, hhead with
  | [a], hhead =>
    obtain rfl : a = b := by simpa using hhead
    exact absurd (by simpa using hlast) hb
  | a :: c :: q, hhead =>
    obtain rfl : a = b := by simpa using hhead
    obtain ⟨hstep, htail⟩ := List.isChain_cons_cons.mp hchain
    exact ⟨c, c :: q, rfl, hstep.2, rfl, by simpa using hlast, htail⟩

omit [DecidableEq α] in
/-- The only path from the target. -/
theorem IsPath.eq_singleton {p : List α} (h : IsPath next target target p) : p = [target] := by
  obtain ⟨hhead, -, hchain⟩ := h
  match p, hhead with
  | [a], hhead => simpa using hhead
  | a :: c :: q, hhead =>
    obtain rfl : a = target := by simpa using hhead
    exact absurd rfl (List.isChain_cons_cons.mp hchain).1.1

/-- Along a step the value of a vertex covers its cost and the value behind it. -/
theorem Potential.add_value_le {st : DfsState α} (h : Potential next cost target st) {b c : α}
    (hb : b ≠ target) (hdone : Done target st b) (hc : c ∈ next b)
    (hnonneg : 0 ≤ value cost target st c) :
    cost b + value cost target st c ≤ value cost target st b :=
  calc cost b + value cost target st c
      ≤ st.memo b := (h b (hdone.resolve_left hb) c hc).2 hnonneg
    _ = value cost target st b := (if_neg hb).symm

/-- **A potential dominates the paths.** -/
theorem Potential.path_le {st : DfsState α} (h : Potential next cost target st)
    (hcost : ∀ b, 0 ≤ cost b) {b : α} (hdone : Done target st b) {p : List α}
    (hp : IsPath next target b p) : (p.map cost).sum ≤ value cost target st b := by
  induction hn : p.length generalizing b p with
  | zero =>
    rw [List.length_eq_zero_iff.mp hn] at hp
    exact absurd hp.head (by simp)
  | succ n ih =>
    by_cases hb : b = target
    · subst hb
      simp [hp.eq_singleton, value]
    · obtain ⟨c, q, rfl, hc, hq⟩ := hp.exists_tail hb
      have hdc := (h b (hdone.resolve_left hb) c hc).1
      have hrec := ih hdc hq (by simpa using hn)
      have hq0 : 0 ≤ (q.map cost).sum := List.sum_nonneg fun x hx => by
        obtain ⟨a, -, rfl⟩ := List.mem_map.mp hx
        exact hcost a
      calc ((b :: q).map cost).sum = cost b + (q.map cost).sum := by
            rw [List.map_cons, List.sum_cons]
        _ ≤ cost b + value cost target st c := by gcongr
        _ ≤ value cost target st b := h.add_value_le hb hdone hc (hq0.trans hrec)

/-- **The path along the best successors attains the value.** -/
theorem follow_spec {st : DfsState α} (hl : Linked next cost target st) (n : ℕ) {b : α}
    (hdone : Done target st b) (hnn : b ≠ target → 0 ≤ st.memo b) {p : List α}
    (h : follow target st.bestSucc n b = some p) :
    IsPath next target b p ∧ (p.map cost).sum = value cost target st b := by
  induction n generalizing b p with
  | zero => simp [follow] at h
  | succ n ih =>
    rw [follow] at h
    split_ifs at h with hb
    · obtain rfl : [b] = p := by simpa using h
      subst hb
      exact ⟨⟨rfl, rfl, by simp⟩, by simp [value]⟩
    · obtain ⟨rank, hrank⟩ := hl
      obtain ⟨c, hc, hbs, hdc, ⟨hval, hmemo⟩, -⟩ := hrank b (hdone.resolve_left hb) (hnn hb)
      rw [hbs] at h
      obtain ⟨q, hq, rfl⟩ := Option.map_eq_some_iff.mp h
      obtain ⟨hpath, hsum⟩ := ih hdc (fun hct => by rwa [value, if_neg hct] at hval) hq
      refine ⟨⟨rfl, ?_, ?_⟩, ?_⟩
      · rw [List.getLast?_cons, hpath.last]
        rfl
      · refine List.isChain_cons.mpr ⟨fun d hd => ?_, hpath.chain⟩
        rw [hpath.head, Option.mem_def, Option.some.injEq] at hd
        exact ⟨hb, hd ▸ hc⟩
      · have hvalue : value cost target st b = st.memo b := if_neg hb
        rw [List.map_cons, List.sum_cons, hsum, hvalue, hmemo]

/-- **The best successors lead to the target**, in at most one step for each vertex. -/
theorem follow_isSome {vertices : List α} (hnext : ∀ a ∈ vertices, ∀ c ∈ next a, c ∈ vertices)
    {st : DfsState α} (hl : Linked next cost target st) {b : α} (hb : b ∈ vertices)
    (hdone : Done target st b) (hnn : b ≠ target → 0 ≤ st.memo b) {n : ℕ}
    (hn : vertices.length < n) : (follow target st.bestSucc n b).isSome := by
  obtain ⟨rank, hrank⟩ := hl
  -- the number of vertices of smaller rank bounds the remaining steps
  have key : ∀ n b, b ∈ vertices → Done target st b → (b ≠ target → 0 ≤ st.memo b) →
      (vertices.filter fun c => rank c < rank b).length + 1 < n →
      (follow target st.bestSucc n b).isSome := by
    intro n
    induction n with
    | zero => intro b _ _ _ hlen; omega
    | succ n ih =>
      intro b hb hdone hnn hlen
      rw [follow]
      split_ifs with htarget
      · rfl
      · obtain ⟨c, hc, hbs, hdc, hval, hlt⟩ :=
          hrank b (hdone.resolve_left htarget) (hnn htarget)
        rw [hbs]
        have hcv := hnext b hb c hc
        have hrec : (follow target st.bestSucc n c).isSome := by
          by_cases hct : c = target
          · obtain ⟨m, rfl⟩ : ∃ m, n = m + 1 := ⟨n - 1, by omega⟩
            simp [follow, hct]
          · refine ih c hcv hdc (fun _ => ?_) ?_
            · rw [value, if_neg hct] at hval
              exact hval.1
            · have hsub : (vertices.filter fun d => rank d < rank c) =
                  (vertices.filter fun d => rank d < rank b).filter
                    fun d => rank d < rank c := by
                rw [List.filter_filter]
                refine List.filter_congr fun d _ => ?_
                have := hlt hct
                rw [← Bool.decide_and, decide_eq_decide]
                omega
              have hless : (vertices.filter fun d => rank d < rank c).length <
                  (vertices.filter fun d => rank d < rank b).length := by
                rw [hsub]
                refine List.length_filter_lt_length_iff_exists.mpr ⟨c, ?_, by simp⟩
                exact List.mem_filter.mpr ⟨hcv, by simpa using hlt hct⟩
              omega
        obtain ⟨l, hl⟩ := Option.isSome_iff_exists.mp hrec
        simp [hl]
  refine key n b hb hdone hnn ?_
  have hlt : (vertices.filter fun c => rank c < rank b).length < vertices.length :=
    List.length_filter_lt_length_iff_exists.mpr ⟨b, hb, by simp⟩
  omega

end Bao.Graph
