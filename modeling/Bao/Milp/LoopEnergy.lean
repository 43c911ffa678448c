import Bao.Milp.EnergyPath

/-!
# Energy of loop executions

An execution of a loop is a walk through its blocks from the header on. This file bounds the
energy of an execution by the number of header executions times the worst-case path
(`energy_le_count_mul_worst`), for executions that respect the trip counts of the nested
sub-loops and in which control returns from a latch to the header of its loop or leaves the
loop (`LatchStep`).

The proof is an induction on the nest. In one body the values of the search are a potential
(`Graph.Potential`): a walk that enters a block at the level of the loop collects at most the
value of that block before it meets the header again (`walk_le_value`). A stay in a sub-loop
is collapsed to its header, whose cost in the search is the total of the sub-loop.
-/

namespace Bao.Milp.Loop

variable {C : CFGAnalysis} {tripCount : Loop → Option ℕ} {L : Loop}

/-! ### Executions -/

/-- **Trip counts.** Every stay in the loop, from an entry on, executes the header at most as
often as the trip count says. -/
def TripBound (tripCount : Loop → Option ℕ) (S : Loop) (w : List BlockId) : Prop :=
  ∀ n, tripCount S = some n → ∀ pre seg post, w = pre ++ seg ++ post →
    (∀ b ∈ seg, b ∈ S.blocks) → (∀ p ∈ pre.getLast?, p ∉ S.blocks) → seg.count S.header ≤ n

/-- A step from the latch of a loop of the nest to a block of that loop goes to its header. -/
def LatchStep (C : CFGAnalysis) (L : Loop) (b c : BlockId) : Prop :=
  ∀ S ∈ L.collectOutermostFirst, S.getLoopLatch C = some b → c ∈ S.blocks → c = S.header

instance (C : CFGAnalysis) (L : Loop) (b c : BlockId) : Decidable (L.LatchStep C b c) :=
  inferInstanceAs (Decidable (∀ S ∈ L.collectOutermostFirst, _ → _ → _))

/-- An execution of the body of a loop: a walk through its blocks from the header on. -/
structure Walk (C : CFGAnalysis) (L : Loop) (w : List BlockId) : Prop where
  head : w.head? = some L.header
  chain : List.IsChain C.Succ w
  mem : ∀ b ∈ w, b ∈ L.blocks

/-- A walk that executes the header no more often than the trip count respects it. -/
theorem tripBound_of_count_le {S : Loop} {w : List BlockId} {n : ℕ}
    (hn : tripCount S = some n) (hle : w.count S.header ≤ n) : TripBound tripCount S w := by
  intro m hm pre seg post hw _ _
  rw [hn, Option.some.injEq] at hm
  subst hm hw
  rw [List.count_append, List.count_append] at hle
  omega

/-- A stay in a sub-loop inherits the trip counts of what is nested in it. -/
theorem TripBound.stay {S T : Loop} {w pre seg post : List BlockId}
    (h : TripBound tripCount T w) (hw : w = pre ++ seg ++ post)
    (hsub : ∀ b ∈ T.blocks, b ∈ S.blocks) (hpre : ∀ p ∈ pre.getLast?, p ∉ S.blocks) :
    TripBound tripCount T seg := by
  intro n hn pre' seg' post' hseg hmem hpre'
  refine h n hn (pre ++ pre') seg' (post' ++ post) ?_ hmem fun p hp => ?_
  · rw [hw, hseg]
    simp
  · rw [List.getLast?_append] at hp
    cases hl : pre'.getLast? with
    | none =>
      rw [hl, Option.none_or] at hp
      exact fun hT => hpre p hp (hsub p hT)
    | some q =>
      rw [hl, Option.some_or, Option.mem_def, Option.some.injEq] at hp
      exact hp ▸ hpre' q hl

/-- The longest prefix of a list on which a property holds. -/
private theorem exists_stay (p : BlockId → Prop) [DecidablePred p] (u : List BlockId) :
    ∃ seg post, u = seg ++ post ∧ (∀ b ∈ seg, p b) ∧ ∀ d ∈ post.head?, ¬p d := by
  induction u with
  | nil => exact ⟨[], [], rfl, by simp, by simp⟩
  | cons a u ih =>
    by_cases ha : p a
    · obtain ⟨seg, post, rfl, hseg, hpost⟩ := ih
      refine ⟨a :: seg, post, rfl, fun b hb => ?_, hpost⟩
      rcases List.mem_cons.mp hb with rfl | hb
      · exact ha
      · exact hseg b hb
    · exact ⟨[], a :: u, rfl, by simp, by simpa using ha⟩

/-! ### Costs of the search -/

/-- Trip counts and worst paths are known for all sub-loops, with their totals. -/
theorem total_of_subLoop {totals : List (Loop × ℚ)} (hn : L.Natural C)
    (htot : subLoopTotals C tripCount L.subLoops = .ok totals) {S : Loop}
    (hS : S ∈ L.subLoops) (hS' : S.Natural C) :
    ∃ tc w, tripCount S = some tc ∧ computeWorstCasePath C tripCount S = .ok w ∧
      getEnergy C totals S.header = w.energy * tc := by
  obtain ⟨hmap, hall⟩ := subLoopTotals_ok htot
  have hmem : S.header ∈ S.blocks := hS'.header_mem
  have hex : ∃ t ∈ totals, S.header ∈ t.1.blocks := by
    rw [← hmap] at hS
    obtain ⟨t, ht, rfl⟩ := List.mem_map.mp hS
    exact ⟨t, ht, hmem⟩
  have hsome : (totals.find? fun t => S.header ∈ t.1.blocks).isSome :=
    List.find?_isSome.mpr (by simpa using hex)
  obtain ⟨t, ht⟩ := Option.isSome_iff_exists.mp hsome
  have htmem := List.mem_of_find?_eq_some ht
  have hts : t.1 = S := by
    have hb : S.header ∈ t.1.blocks := by simpa using List.find?_some ht
    refine hn.subLoop_unique ?_ hS hb hmem
    rw [← hmap]
    exact List.mem_map_of_mem htmem
  obtain ⟨tc, w, htc, hw, htotal⟩ := hall t htmem
  rw [hts] at htc hw
  refine ⟨tc, w, htc, hw, ?_⟩
  rw [getEnergy, ht, ← htotal]
  simp [hts]

/-- A block that does not head a sub-loop costs its own energy. -/
theorem getEnergy_of_ne_header {totals : List (Loop × ℚ)}
    (htot : subLoopTotals C tripCount L.subLoops = .ok totals) {b : BlockId}
    (hb : ∀ S ∈ L.subLoops, S.header ≠ b) : getEnergy C totals b = C.energyCost b := by
  rw [getEnergy]
  split
  · rename_i S total hfind
    have hS : S ∈ L.subLoops := by
      rw [← (subLoopTotals_ok htot).1]
      exact List.mem_map_of_mem (List.mem_of_find?_eq_some hfind)
    rw [if_neg (hb S hS)]
  · rfl

/-- A block outside the sub-loops costs its own energy. -/
private theorem getEnergy_own {totals : List (Loop × ℚ)}
    (htot : subLoopTotals C tripCount L.subLoops = .ok totals)
    (hsub : ∀ S ∈ L.subLoops, S.Natural C) {b : BlockId}
    (hb : ∀ S ∈ L.subLoops, b ∉ S.blocks) : getEnergy C totals b = C.energyCost b :=
  getEnergy_of_ne_header htot fun S hS heq => hb S hS (heq ▸ (hsub S hS).header_mem)

/-- The worst-case energy of a body is non-negative when its totals are. -/
private theorem searchBody_nonneg {totals : List (Loop × ℚ)} {latch : BlockId}
    {w : WorstCasePath} (hcost : 0 ≤ getEnergy C totals L.header)
    (h : L.searchBody C totals latch = .ok w) : 0 ≤ w.energy := by
  by_cases hhl : L.header = latch
  · rw [searchBody, if_pos hhl] at h
    obtain rfl : _ = w := by simpa using h
    exact hcost
  · obtain ⟨-, -, -, -, hpos, -⟩ := searchBody_ok hhl h
    exact hpos.le

/-- The costs of the search are non-negative. -/
theorem worst_nonneg (L : Loop) (hnat : ∀ T ∈ L.collectOutermostFirst, T.Natural C)
    {w : WorstCasePath} (h : computeWorstCasePath C tripCount L = .ok w) : 0 ≤ w.energy := by
  obtain ⟨latch, totals, -, htot, hbody⟩ := computeWorstCasePath_ok h
  have hn := hnat L L.self_mem_nest
  refine searchBody_nonneg ?_ hbody
  rw [getEnergy_own htot (fun S hS => hnat S (subLoop_mem_nest hS)) hn.sub_header]
  exact C.energyCost_nonneg _

theorem getEnergy_nonneg {totals : List (Loop × ℚ)}
    (hnat : ∀ T ∈ L.collectOutermostFirst, T.Natural C)
    (htot : subLoopTotals C tripCount L.subLoops = .ok totals) (b : BlockId) :
    0 ≤ getEnergy C totals b := by
  rw [getEnergy]
  split
  · rename_i S total hfind
    split_ifs
    · obtain ⟨tc, w, -, hw, htotal⟩ :=
        (subLoopTotals_ok htot).2 _ (List.mem_of_find?_eq_some hfind)
      have hS : S ∈ L.subLoops := by
        rw [← (subLoopTotals_ok htot).1]
        exact List.mem_map_of_mem (List.mem_of_find?_eq_some hfind)
      have hw0 : 0 ≤ w.energy := worst_nonneg S
        (fun T hT => hnat T (mem_nest_trans hT (subLoop_mem_nest hS))) hw
      simp only at htotal
      rw [htotal]
      positivity
    · exact C.energyCost_nonneg b
  · exact C.energyCost_nonneg b

/-- The loops of a nest lie in the outermost one. -/
theorem nest_subset (L : Loop) (hnat : ∀ T ∈ L.collectOutermostFirst, T.Natural C) {T : Loop}
    (hT : T ∈ L.collectOutermostFirst) : ∀ b ∈ T.blocks, b ∈ L.blocks := by
  induction L using nest_induction with
  | step L ih =>
    rcases mem_collectOutermostFirst.mp hT with rfl | ⟨S, hS, hTS⟩
    · exact fun b hb => hb
    · intro b hb
      refine (hnat L L.self_mem_nest).sub_subset S hS b (ih S hS (fun U hU => ?_) hTS b hb)
      exact hnat U (mem_nest_trans hU (subLoop_mem_nest hS))

/-! ### One body -/

/-- A searched body: a natural loop in simplified form whose sub-loops are such loops too,
with the totals of the sub-loops and the final state of a search without a cycle. -/
private structure Searched (C : CFGAnalysis) (tripCount : Loop → Option ℕ) (L : Loop)
    (latch : BlockId) (totals : List (Loop × ℚ)) (st : Graph.DfsState BlockId) : Prop where
  natural : ∀ T ∈ L.collectOutermostFirst, T.Natural C
  simplify : ∀ T ∈ L.collectOutermostFirst, T.SimplifyForm C
  latch_eq : L.getLoopLatch C = some latch
  totals_eq : subLoopTotals C tripCount L.subLoops = .ok totals
  potential : Graph.Potential (L.searchSuccs C latch) (getEnergy C totals) latch st

/-- A block at the level of the loop: of the loop, and the header of its sub-loop, if any. -/
private def TopLevel (L : Loop) (b : BlockId) : Prop :=
  b ∈ L.blocks ∧ ∀ S ∈ L.subLoops, b ∈ S.blocks → b = S.header

/-- The block at the level of the loop that stands for a block in the search. -/
private def collapse (L : Loop) (b : BlockId) : BlockId :=
  match L.getDirectChildLoop b with
  | some S => S.header
  | none => b

private theorem collapse_own {b : BlockId} (hb : ∀ S ∈ L.subLoops, b ∉ S.blocks) :
    L.collapse b = b ∧ L.getSuccs C b = C.successors b := by
  have hnone : L.getDirectChildLoop b = none := by
    rw [getDirectChildLoop, List.find?_eq_none]
    intro S hS
    simpa using hb S hS
  exact ⟨by rw [collapse, hnone], by rw [getSuccs, hnone]⟩

private theorem collapse_sub (hn : L.Natural C) {S : Loop} (hS : S ∈ L.subLoops)
    (hS' : S.Natural C) {b : BlockId} (hb : b ∈ S.blocks) :
    L.collapse b = S.header ∧ L.getSuccs C S.header = S.getExitBlocks C := by
  refine ⟨by rw [collapse, hn.getDirectChildLoop_eq hS hb], ?_⟩
  rw [getSuccs, hn.getDirectChildLoop_eq hS hS'.header_mem]
  simp

section Searched

variable {latch : BlockId} {totals : List (Loop × ℚ)} {st : Graph.DfsState BlockId}

private theorem Searched.self (h : Searched C tripCount L latch totals st) :
    L.Natural C ∧ L.SimplifyForm C :=
  ⟨h.natural L L.self_mem_nest, h.simplify L L.self_mem_nest⟩

private theorem Searched.sub (h : Searched C tripCount L latch totals st) {S : Loop}
    (hS : S ∈ L.subLoops) : S.Natural C ∧ S.SimplifyForm C ∧ latch ∉ S.blocks := by
  have hmem := subLoop_mem_nest hS
  exact ⟨h.natural S hmem, h.simplify S hmem,
    latch_not_mem_subLoop h.self.1 h.self.2 hS (h.simplify S hmem) h.latch_eq⟩

private theorem Searched.latch_own (h : Searched C tripCount L latch totals st) :
    ∀ S ∈ L.subLoops, latch ∉ S.blocks :=
  fun _ hS => (h.sub hS).2.2

private theorem Searched.header_own (h : Searched C tripCount L latch totals st) :
    ∀ S ∈ L.subLoops, L.header ∉ S.blocks :=
  fun S hS => h.self.1.sub_header S hS

/-- Sub-loops are entered through their headers, so the target of a step that enters no
sub-loop in the middle is at the level of the loop. -/
private theorem Searched.topLevel_of_step (h : Searched C tripCount L latch totals st)
    {q c : BlockId} (hq : q ∈ L.blocks) (hstep : C.Succ q c) (hc : c ∈ L.blocks)
    (hout : ∀ S ∈ L.subLoops, c ∈ S.blocks → q ∉ S.blocks) : L.TopLevel c := by
  refine ⟨hc, fun S hS hcS => ?_⟩
  exact (h.sub hS).1.single_entry q c (h.self.1.reachable q hq) hstep (hout S hS hcS) hcS

/-- A step from a block outside the sub-loops is a step of the search. -/
private theorem Searched.own_step (h : Searched C tripCount L latch totals st)
    {b c : BlockId} (hb : b ∈ L.blocks) (hown : ∀ S ∈ L.subLoops, b ∉ S.blocks)
    (hlatch : b ≠ latch) (hstep : C.Succ b c) (hc : c ∈ L.blocks) :
    c ∈ L.searchSuccs C latch b ∧ L.TopLevel c := by
  refine ⟨?_, h.topLevel_of_step hb hstep hc fun S hS _ => hown S hS⟩
  rw [searchSuccs, (collapse_own (C := C) hown).2, List.mem_filter]
  exact ⟨hstep, by simp [hc, hlatch]⟩

/-- A step that leaves a sub-loop inside the loop is a step of the search from its header. -/
private theorem Searched.exit_step (h : Searched C tripCount L latch totals st) {S : Loop}
    (hS : S ∈ L.subLoops) {q c : BlockId} (hq : q ∈ S.blocks) (hstep : C.Succ q c)
    (hc : c ∈ L.blocks) (hcS : c ∉ S.blocks) :
    c ∈ L.searchSuccs C latch S.header ∧ L.TopLevel c := by
  have hqL := h.self.1.sub_subset S hS q hq
  refine ⟨?_, h.topLevel_of_step hqL hstep hc fun T hT hcT hqT => ?_⟩
  · have hne : S.header ≠ latch := fun heq => (h.sub hS).2.2 (heq ▸ (h.sub hS).1.header_mem)
    rw [searchSuccs, (collapse_sub h.self.1 hS (h.sub hS).1 hq).2, List.mem_filter,
      mem_getExitBlocks]
    exact ⟨⟨hcS, q, hq, hstep⟩, by simp [hc, hne]⟩
  · exact hcS (h.self.1.subLoop_unique hS hT hq hqT ▸ hcT)

private theorem collapse_topLevel (h : Searched C tripCount L latch totals st) {c : BlockId}
    (hc : L.TopLevel c) : L.collapse c = c := by
  by_cases hsub : ∃ S ∈ L.subLoops, c ∈ S.blocks
  · obtain ⟨S, hS, hcS⟩ := hsub
    rw [(collapse_sub h.self.1 hS (h.sub hS).1 hcS).1, ← hc.2 S hS hcS]
  · exact (collapse_own (C := C) fun S hS hcS => hsub ⟨S, hS, hcS⟩).1

/-- In the collapsed graph every block reaches the latch. -/
private theorem Searched.reaches (h : Searched C tripCount L latch totals st) {b : BlockId}
    (hb : b ∈ L.blocks) :
    Relation.ReflTransGen (fun b c => c ∈ L.searchSuccs C latch b) (L.collapse b) latch := by
  have hreach := h.self.1.reaches_latch h.latch_eq hb
  induction hreach using Relation.ReflTransGen.head_induction_on with
  | refl =>
    rw [(collapse_own (C := C) h.latch_own).1]
  | @head b c hstep _ ih =>
    have ih := ih hstep.2
    by_cases hsub : ∃ S ∈ L.subLoops, b ∈ S.blocks
    · obtain ⟨S, hS, hbS⟩ := hsub
      have hcol := (collapse_sub h.self.1 hS (h.sub hS).1 hbS).1
      rw [hcol]
      by_cases hcS : c ∈ S.blocks
      · rwa [(collapse_sub h.self.1 hS (h.sub hS).1 hcS).1] at ih
      · obtain ⟨hsearch, htop⟩ := h.exit_step hS hbS hstep.1 hstep.2 hcS
        rw [collapse_topLevel h htop] at ih
        exact .head hsearch ih
    · have hown : ∀ S ∈ L.subLoops, b ∉ S.blocks := fun S hS hbS => hsub ⟨S, hS, hbS⟩
      rw [(collapse_own (C := C) hown).1]
      by_cases hbl : b = latch
      · rw [hbl]
      · obtain ⟨hsearch, htop⟩ := h.own_step hb hown hbl hstep.1 hstep.2
        rw [collapse_topLevel h htop] at ih
        exact .head hsearch ih

/-- The value of a finished block is at least its cost: it reaches the latch. -/
private theorem Searched.cost_le_value (h : Searched C tripCount L latch totals st)
    {b : BlockId} (hb : L.TopLevel b) (hdone : Graph.Done latch st b) :
    getEnergy C totals b ≤ Graph.value (getEnergy C totals) latch st b := by
  have hreach := h.reaches hb.1
  rw [collapse_topLevel h hb] at hreach
  clear hb
  induction hreach using Relation.ReflTransGen.head_induction_on with
  | refl => simp [Graph.value]
  | @head b c hstep _ ih =>
    by_cases hbl : b = latch
    · simp [Graph.value, hbl]
    · have hc := ih (h.potential b (hdone.resolve_left hbl) c hstep).1
      have hnonneg := (getEnergy_nonneg h.natural h.totals_eq c).trans hc
      calc getEnergy C totals b
          ≤ getEnergy C totals b + Graph.value (getEnergy C totals) latch st c :=
            le_add_of_nonneg_right hnonneg
        _ ≤ Graph.value (getEnergy C totals) latch st b :=
            h.potential.add_value_le hbl hdone hstep hnonneg

/-- A step of the search from a finished block: its value covers its cost and the value of the
block behind it, which is finished too. -/
private theorem Searched.add_value_le (h : Searched C tripCount L latch totals st)
    {b c : BlockId} (hdone : Graph.Done latch st b) (hb : b ≠ latch)
    (hstep : c ∈ L.searchSuccs C latch b) (hc : L.TopLevel c) :
    Graph.Done latch st c ∧
      getEnergy C totals b + Graph.value (getEnergy C totals) latch st c ≤
        Graph.value (getEnergy C totals) latch st b := by
  have hdc := (h.potential b (hdone.resolve_left hb) c hstep).1
  have hcost := getEnergy_nonneg h.natural h.totals_eq c
  exact ⟨hdc, h.potential.add_value_le hb hdone hstep (hcost.trans (h.cost_le_value hc hdc))⟩

/-- The energy of a list of blocks. -/
def energyOf (C : CFGAnalysis) (w : List BlockId) : ℚ := (w.map C.energyCost).sum

@[simp] theorem energyOf_cons (b : BlockId) (w : List BlockId) :
    energyOf C (b :: w) = C.energyCost b + energyOf C w := by
  simp [energyOf]

@[simp] theorem energyOf_append (v w : List BlockId) :
    energyOf C (v ++ w) = energyOf C v + energyOf C w := by
  simp [energyOf]

/-- The bound for one loop: every walk that respects the trip counts below it, and returns
from latches to headers, costs at most the worst path for every header it executes. -/
private def Bounded (C : CFGAnalysis) (tripCount : Loop → Option ℕ) (S : Loop) : Prop :=
  ∀ W, computeWorstCasePath C tripCount S = .ok W → ∀ w, S.Walk C w →
    List.IsChain (S.LatchStep C) w →
    (∀ T ∈ S.subLoops, ∀ U ∈ T.collectOutermostFirst, TripBound tripCount U w) →
    energyOf C w ≤ w.count S.header * W.energy

/-- A stay in a sub-loop costs at most the total of the sub-loop. -/
private theorem Searched.stay_le (h : Searched C tripCount L latch totals st) {S : Loop}
    (hS : S ∈ L.subLoops) (hbound : Bounded C tripCount S) {w pre seg post : List BlockId}
    (hw : w = pre ++ (S.header :: seg) ++ post) (hseg : ∀ b ∈ S.header :: seg, b ∈ S.blocks)
    (hpre : ∀ p ∈ pre.getLast?, p ∉ S.blocks) (hchain : List.IsChain C.Succ w)
    (hlatch : List.IsChain (L.LatchStep C) w)
    (htrip : ∀ T ∈ S.collectOutermostFirst, TripBound tripCount T w) :
    energyOf C (S.header :: seg) ≤ getEnergy C totals S.header := by
  obtain ⟨hSn, hSs, -⟩ := h.sub hS
  obtain ⟨tc, W, htc, hW, htotal⟩ := total_of_subLoop h.self.1 h.totals_eq hS hSn
  have hpart : ∀ R : BlockId → BlockId → Prop, List.IsChain R w →
      List.IsChain R (S.header :: seg) := by
    intro R hR
    rw [hw, List.append_assoc] at hR
    exact (List.isChain_append.mp (List.isChain_append.mp hR).2.1).1
  have hwalk : S.Walk C (S.header :: seg) := ⟨rfl, hpart _ hchain, hseg⟩
  have hlatch' : List.IsChain (S.LatchStep C) (S.header :: seg) := by
    refine (hpart _ hlatch).imp fun b c hbc T hT => ?_
    exact hbc T (mem_nest_trans hT (subLoop_mem_nest hS))
  have hsubset : ∀ T ∈ S.collectOutermostFirst, ∀ b ∈ T.blocks, b ∈ S.blocks :=
    fun T hT => nest_subset S (fun U hU => h.natural U (mem_nest_trans hU
      (subLoop_mem_nest hS))) hT
  have hle := hbound W hW _ hwalk hlatch' fun T hT U hU => by
    have hUS := mem_nest_trans hU (subLoop_mem_nest hT)
    exact (htrip U hUS).stay hw (hsubset U hUS) hpre
  have hcount : (S.header :: seg).count S.header ≤ tc :=
    htrip S S.self_mem_nest tc htc pre _ post hw hseg hpre
  have hW0 : 0 ≤ W.energy := worst_nonneg S
    (fun T hT => h.natural T (mem_nest_trans hT (subLoop_mem_nest hS))) hW
  calc energyOf C (S.header :: seg)
      ≤ (S.header :: seg).count S.header * W.energy := hle
    _ ≤ tc * W.energy := by gcongr
    _ = getEnergy C totals S.header := by rw [htotal, mul_comm]

/-- **Walks and values.** From a block at the level of the loop on, a walk costs at most the
value of the block, and the value of the header for every return to the header. -/
private theorem Searched.walk_le_value (h : Searched C tripCount L latch totals st)
    (hheader : Graph.Done latch st L.header)
    (hbound : ∀ S ∈ L.subLoops, Bounded C tripCount S) {w : List BlockId}
    (hchain : List.IsChain C.Succ w) (hmem : ∀ b ∈ w, b ∈ L.blocks)
    (hlatch : List.IsChain (L.LatchStep C) w)
    (htrip : ∀ S ∈ L.subLoops, ∀ T ∈ S.collectOutermostFirst, TripBound tripCount T w)
    {pre rest : List BlockId} {c : BlockId} (hw : w = pre ++ c :: rest) (hc : L.TopLevel c)
    (hdone : Graph.Done latch st c)
    (hentry : ∀ S ∈ L.subLoops, c ∈ S.blocks → ∀ p ∈ pre.getLast?, p ∉ S.blocks) :
    energyOf C (c :: rest) ≤ Graph.value (getEnergy C totals) latch st c +
      rest.count L.header * Graph.value (getEnergy C totals) latch st L.header := by
  have hhead : L.TopLevel L.header :=
    ⟨h.self.1.header_mem, fun S hS hb => absurd hb (h.header_own S hS)⟩
  have hheader0 : 0 ≤ Graph.value (getEnergy C totals) latch st L.header :=
    (getEnergy_nonneg h.natural h.totals_eq _).trans (h.cost_le_value hhead hheader)
  induction hn : rest.length using Nat.strong_induction_on generalizing pre c rest with
  | _ n ih =>
    have hcost := h.cost_le_value hc hdone
    have hsteps := (List.isChain_append.mp (hw ▸ hchain)).2.1
    by_cases hsub : ∃ S ∈ L.subLoops, c ∈ S.blocks
    · -- a stay in a sub-loop, taken as a whole
      obtain ⟨S, hS, hcS⟩ := hsub
      obtain rfl := hc.2 S hS hcS
      obtain ⟨seg, post, hsplit, hseg, hpost⟩ := exists_stay (· ∈ S.blocks) (S.header :: rest)
      cases seg with
      | nil => exact absurd hcS (hpost S.header (by rw [← List.nil_append post, ← hsplit]; rfl))
      | cons a seg =>
        obtain ⟨rfl, hrest⟩ := List.cons_eq_cons.mp (hsplit.trans (List.cons_append ..))
        have hstay := h.stay_le hS (hbound S hS)
          (by rw [hw, hsplit, List.append_assoc]) hseg (hentry S hS hcS) hchain hlatch
          (htrip S hS)
        have hnot : L.header ∉ S.header :: seg :=
          fun hb => h.header_own S hS (hseg _ hb)
        have hcount : rest.count L.header = post.count L.header := by
          have : seg.count L.header = 0 :=
            List.count_eq_zero.mpr fun hb => hnot (List.mem_cons_of_mem _ hb)
          rw [hrest, List.count_append, this, Nat.zero_add]
        rw [hsplit, energyOf_append, hcount]
        cases post with
        | nil =>
          calc energyOf C (S.header :: seg) + energyOf C []
              = energyOf C (S.header :: seg) := by simp [energyOf]
            _ ≤ getEnergy C totals S.header := hstay
            _ ≤ Graph.value (getEnergy C totals) latch st S.header := hcost
            _ = _ := by rw [List.count_nil, Nat.cast_zero, zero_mul, add_zero]
        | cons d post =>
          -- control leaves the sub-loop to an exit block
          obtain ⟨q, hq⟩ : ∃ q, (S.header :: seg).getLast? = some q :=
            ⟨_, List.getLast?_eq_some_getLast (List.cons_ne_nil _ _)⟩
          have hqS : q ∈ S.blocks := hseg q (List.mem_of_getLast? hq)
          have hstep : C.Succ q d :=
            (List.isChain_append.mp (hsplit ▸ hsteps)).2.2 q hq d rfl
          have hdL : d ∈ L.blocks := hmem d (by rw [hw, hsplit]; simp)
          obtain ⟨hsearch, htop⟩ := h.exit_step hS hqS hstep hdL (hpost d rfl)
          have hne : S.header ≠ latch :=
            fun heq => h.latch_own S hS (heq ▸ (h.sub hS).1.header_mem)
          obtain ⟨hdd, hval⟩ := h.add_value_le hdone hne hsearch htop
          have hdh : d ≠ L.header := by
            rintro rfl
            have := (getLoopLatch_eq_some h.latch_eq q
              (h.self.1.sub_subset S hS q hqS)).mp hstep
            exact h.latch_own S hS (this ▸ hqS)
          have hw' : w = (pre ++ (S.header :: seg)) ++ d :: post := by
            rw [hw, hsplit, List.append_assoc]
          have hrec := ih post.length (by rw [← hn, hrest]; simp; omega) hw' htop hdd
            (fun T hT hdT p hp hpT => by
              rw [List.getLast?_append, hq, Option.some_or, Option.mem_def,
                Option.some.injEq] at hp
              exact hpost d rfl (h.self.1.subLoop_unique hS hT hqS (hp ▸ hpT) ▸ hdT)) rfl
          rw [List.count_cons_of_ne hdh]
          calc energyOf C (S.header :: seg) + energyOf C (d :: post)
              ≤ getEnergy C totals S.header + (Graph.value (getEnergy C totals) latch st d +
                  post.count L.header *
                    Graph.value (getEnergy C totals) latch st L.header) := by gcongr
            _ = getEnergy C totals S.header + Graph.value (getEnergy C totals) latch st d +
                  post.count L.header *
                    Graph.value (getEnergy C totals) latch st L.header := (add_assoc ..).symm
            _ ≤ _ := by gcongr
    · -- a block of the loop itself
      have hown : ∀ S ∈ L.subLoops, c ∉ S.blocks := fun S hS hb => hsub ⟨S, hS, hb⟩
      have hcost' := getEnergy_own h.totals_eq (fun S hS => (h.sub hS).1) hown
      cases rest with
      | nil =>
        calc energyOf C [c] = getEnergy C totals c := by simp [energyOf, hcost']
          _ ≤ Graph.value (getEnergy C totals) latch st c := hcost
          _ = _ := by rw [List.count_nil, Nat.cast_zero, zero_mul, add_zero]
      | cons d rest =>
        have hstep : C.Succ c d := (List.isChain_cons_cons.mp hsteps).1
        have hdL : d ∈ L.blocks := hmem d (by rw [hw]; simp)
        have hw' : w = (pre ++ [c]) ++ d :: rest := by rw [hw]; simp
        have hlen : rest.length < n := by rw [← hn]; simp
        have hpre : ∀ p ∈ (pre ++ [c]).getLast?, p = c := by
          intro p hp
          simpa using hp.symm
        rw [energyOf_cons]
        by_cases hcl : c = latch
        · -- from the latch the walk can only return to the header
          have hls := (List.isChain_append.mp (hw ▸ hlatch)).2.1
          obtain rfl : d = L.header := (List.isChain_cons_cons.mp hls).1 L L.self_mem_nest
            (hcl ▸ h.latch_eq) hdL
          have hrec := ih rest.length hlen hw' hhead hheader
            (fun S hS hb => absurd hb (h.header_own S hS)) rfl
          rw [List.count_cons_self]
          calc C.energyCost c + energyOf C (L.header :: rest)
              ≤ Graph.value (getEnergy C totals) latch st c +
                  (Graph.value (getEnergy C totals) latch st L.header +
                    rest.count L.header *
                      Graph.value (getEnergy C totals) latch st L.header) :=
                add_le_add (hcost'.symm.trans_le hcost) hrec
            _ = _ := by
                push_cast
                ring
        · obtain ⟨hsearch, htop⟩ := h.own_step hc.1 hown hcl hstep hdL
          obtain ⟨hdd, hval⟩ := h.add_value_le hdone hcl hsearch htop
          have hdh : d ≠ L.header := by
            rintro rfl
            exact hcl ((getLoopLatch_eq_some h.latch_eq c hc.1).mp hstep)
          have hrec := ih rest.length hlen hw' htop hdd
            (fun S hS _ p hp hpS => hown S hS (hpre p hp ▸ hpS)) rfl
          rw [List.count_cons_of_ne hdh, ← hcost']
          calc getEnergy C totals c + energyOf C (d :: rest)
              ≤ getEnergy C totals c + (Graph.value (getEnergy C totals) latch st d +
                  rest.count L.header *
                    Graph.value (getEnergy C totals) latch st L.header) := by gcongr
            _ = getEnergy C totals c + Graph.value (getEnergy C totals) latch st d +
                  rest.count L.header *
                    Graph.value (getEnergy C totals) latch st L.header := (add_assoc ..).symm
            _ ≤ _ := by gcongr

end Searched

/-! ### The nest -/

/-- A walk in a loop whose header is its latch never leaves the header. -/
private theorem walk_self_latch (hl : L.getLoopLatch C = some L.header) {w : List BlockId}
    {a : BlockId} (ha : a = L.header) (hmem : ∀ b ∈ a :: w, b ∈ L.blocks)
    (hlatch : List.IsChain (L.LatchStep C) (a :: w)) :
    energyOf C (a :: w) = (a :: w).count L.header * C.energyCost L.header := by
  induction w generalizing a with
  | nil => simp [energyOf, ha]
  | cons b w ih =>
    obtain ⟨hab, hrest⟩ := List.isChain_cons_cons.mp hlatch
    have hb : b = L.header := hab L L.self_mem_nest (ha ▸ hl) (hmem b (by simp))
    have hrec := ih hb (fun c hc => hmem c (List.mem_cons_of_mem a hc)) hrest
    rw [energyOf_cons, hrec, ha, List.count_cons_self]
    push_cast
    ring

/-- What a successful search of a body with separate header and latch has found. -/
private theorem exists_potential {totals : List (Loop × ℚ)} {latch : BlockId} {W : WorstCasePath}
    (hne : L.header ≠ latch) (h : L.searchBody C totals latch = .ok W) :
    ∃ st, Graph.Potential (L.searchSuccs C latch) (getEnergy C totals) latch st ∧
      Graph.Done latch st L.header ∧
      W.energy = Graph.value (getEnergy C totals) latch st L.header := by
  obtain ⟨st, -, hdfs, hcyc, -⟩ := searchBody_ok hne h
  obtain ⟨hpot, hdone, hval⟩ := (Graph.dfs_init_spec hdfs).2 hcyc
  exact ⟨st, hpot, hdone, hval⟩

private theorem bounded_nest (L : Loop) (hnat : ∀ T ∈ L.collectOutermostFirst, T.Natural C)
    (hsimp : ∀ T ∈ L.collectOutermostFirst, T.SimplifyForm C) : Bounded C tripCount L := by
  induction L using nest_induction with
  | step L ih =>
    intro W hW w hwalk hlatch htrip
    obtain ⟨latch, totals, hl, htot, hbody⟩ := computeWorstCasePath_ok hW
    have hn := hnat L L.self_mem_nest
    have hsub : ∀ S ∈ L.subLoops, Bounded C tripCount S := fun S hS =>
      ih S hS (fun T hT => hnat T (mem_nest_trans hT (subLoop_mem_nest hS)))
        fun T hT => hsimp T (mem_nest_trans hT (subLoop_mem_nest hS))
    obtain ⟨rest, rfl⟩ : ∃ rest, w = L.header :: rest := by
      have := hwalk.head
      cases w with
      | nil => simp at this
      | cons a rest => exact ⟨rest, by rw [List.head?_cons, Option.some.injEq] at this; rw [this]⟩
    -- the search does not run when the header is its own latch
    by_cases hhl : L.header = latch
    · rw [searchBody, if_pos hhl] at hbody
      obtain rfl : _ = W := by simpa using hbody
      rw [walk_self_latch (hhl ▸ hl) rfl hwalk.mem hlatch,
        getEnergy_own htot (fun S hS => hnat S (subLoop_mem_nest hS)) hn.sub_header]
    · obtain ⟨st, hpot, hdone, hval⟩ := exists_potential hhl hbody
      have hs : Searched C tripCount L latch totals st := ⟨hnat, hsimp, hl, htot, hpot⟩
      have hhead : L.TopLevel L.header :=
        ⟨hn.header_mem, fun S hS hb => absurd hb (hn.sub_header S hS)⟩
      have hle := hs.walk_le_value hdone hsub hwalk.chain hwalk.mem hlatch htrip
        (List.nil_append _).symm hhead hdone fun S hS hb => absurd hb (hn.sub_header S hS)
      rw [← hval] at hle
      calc energyOf C (L.header :: rest) ≤ W.energy + rest.count L.header * W.energy := hle
        _ = (L.header :: rest).count L.header * W.energy := by
            rw [List.count_cons_self]
            push_cast
            ring

/-- **Energy of an execution.** A walk through a loop that respects the trip counts of the
nested sub-loops and returns from every latch to the header of its loop costs at most the
worst-case path for every execution of the header. -/
theorem energy_le_count_mul_worst (hnat : ∀ T ∈ L.collectOutermostFirst, T.Natural C)
    (hsimp : ∀ T ∈ L.collectOutermostFirst, T.SimplifyForm C) {W : WorstCasePath}
    (hW : computeWorstCasePath C tripCount L = .ok W) {w : List BlockId} (hwalk : L.Walk C w)
    (hlatch : List.IsChain (L.LatchStep C) w)
    (htrip : ∀ S ∈ L.subLoops, ∀ T ∈ S.collectOutermostFirst, TripBound tripCount T w) :
    energyOf C w ≤ w.count L.header * W.energy :=
  bounded_nest L hnat hsimp W hW w hwalk hlatch htrip

/-! ### The recorded path -/

/-- **On the heaviest paths.** With sub-loops collapsed, every most expensive path from the
header to the latch passes the block, or a sub-loop the block is in. -/
def OnHeaviestPaths (C : CFGAnalysis) (tripCount : Loop → Option ℕ) (L : Loop) (b : BlockId) :
    Prop :=
  ∀ latch totals, L.getLoopLatch C = some latch →
    subLoopTotals C tripCount L.subLoops = .ok totals →
    ∀ p, Graph.IsPath (L.searchSuccs C latch) latch L.header p →
      (∀ q, Graph.IsPath (L.searchSuccs C latch) latch L.header q →
        (q.map (getEnergy C totals)).sum ≤ (p.map (getEnergy C totals)).sum) →
      ∃ c ∈ p, b = c ∨ ∃ S ∈ L.subLoops, S.header = c ∧ b ∈ S.blocks

/-- The blocks a block of the path stands for: itself, and the sub-loop it heads. -/
theorem mem_addPathBlock (hn : L.Natural C) (hsub : ∀ S ∈ L.subLoops, S.Natural C)
    {acc : List BlockId} {b c : BlockId} :
    b ∈ L.addPathBlock acc c ↔
      b ∈ acc ∨ b = c ∨ ∃ S ∈ L.subLoops, S.header = c ∧ b ∈ S.blocks := by
  have hinsert : b ∈ acc.insert c ↔ b ∈ acc ∨ b = c := by
    rw [List.mem_insert_iff, or_comm]
  by_cases hc : ∃ S ∈ L.subLoops, S.header = c
  · obtain ⟨S, hS, rfl⟩ := hc
    have huniq : (∃ T ∈ L.subLoops, T.header = S.header ∧ b ∈ T.blocks) ↔ b ∈ S.blocks := by
      refine ⟨fun ⟨T, hT, hTS, hb⟩ => ?_, fun hb => ⟨S, hS, rfl, hb⟩⟩
      rwa [hn.subLoop_unique hS hT (hsub S hS).header_mem (hTS ▸ (hsub T hT).header_mem)]
    rw [addPathBlock, hn.getDirectChildLoop_eq hS (hsub S hS).header_mem, huniq]
    simp only [if_true, List.mem_union_iff, hinsert]
    tauto
  · have hnone : ¬∃ S ∈ L.subLoops, S.header = c ∧ b ∈ S.blocks :=
      fun ⟨S, hS, heq, _⟩ => hc ⟨S, hS, heq⟩
    rw [← or_assoc, or_iff_left hnone, ← hinsert, addPathBlock]
    split
    · rename_i S hfind
      rw [if_neg fun heq => hc ⟨S, List.mem_of_find?_eq_some hfind, heq⟩]
    · rfl

/-- The blocks of a recorded path. -/
theorem mem_foldl_addPathBlock (hn : L.Natural C) (hsub : ∀ S ∈ L.subLoops, S.Natural C)
    {b : BlockId} (p : List BlockId) {acc : List BlockId} :
    b ∈ p.foldl L.addPathBlock acc ↔
      b ∈ acc ∨ ∃ c ∈ p, b = c ∨ ∃ S ∈ L.subLoops, S.header = c ∧ b ∈ S.blocks := by
  induction p generalizing acc with
  | nil => simp
  | cons a p ih => rw [List.foldl_cons, ih, mem_addPathBlock hn hsub, List.exists_mem_cons_iff,
      or_assoc]

/-- **The recorded path.** A successful computation has found a most expensive path from the
header to the latch, with sub-loops collapsed; the recorded blocks are those the path stands
for. -/
theorem exists_heaviest_path (hnat : ∀ T ∈ L.collectOutermostFirst, T.Natural C)
    {W : WorstCasePath} (hW : computeWorstCasePath C tripCount L = .ok W) :
    ∃ latch totals p, L.getLoopLatch C = some latch ∧
      subLoopTotals C tripCount L.subLoops = .ok totals ∧
      Graph.IsPath (L.searchSuccs C latch) latch L.header p ∧
      (p.map (getEnergy C totals)).sum = W.energy ∧
      (∀ q, Graph.IsPath (L.searchSuccs C latch) latch L.header q →
        (q.map (getEnergy C totals)).sum ≤ W.energy) ∧
      ∀ b, b ∈ W.blocksOnPath ↔
        ∃ c ∈ p, b = c ∨ ∃ S ∈ L.subLoops, S.header = c ∧ b ∈ S.blocks := by
  obtain ⟨latch, totals, hl, htot, hbody⟩ := computeWorstCasePath_ok hW
  have hn := hnat L L.self_mem_nest
  have hsub : ∀ S ∈ L.subLoops, S.Natural C := fun S hS => hnat S (subLoop_mem_nest hS)
  by_cases hhl : L.header = latch
  · rw [searchBody, if_pos hhl] at hbody
    obtain rfl : _ = W := by simpa using hbody
    refine ⟨latch, totals, [L.header], hl, htot, ⟨rfl, by simp [hhl], by simp⟩, by simp,
      fun q hq => ?_, fun b => ?_⟩
    · rw [hhl] at hq ⊢
      simp [hq.eq_singleton]
    · have hno : ∀ S ∈ L.subLoops, S.header ≠ L.header := fun S hS heq =>
        hn.sub_header S hS (heq ▸ (hsub S hS).header_mem)
      simp only [List.mem_singleton, exists_eq_left]
      refine ⟨.inl, ?_⟩
      rintro (hb | ⟨S, hS, heq, -⟩)
      · exact hb
      · exact absurd heq (hno S hS)
  · obtain ⟨st, path, hdfs, hcyc, hpos, hpath, hblocks⟩ := searchBody_ok hhl hbody
    obtain ⟨hlinked, hspec⟩ := Graph.dfs_init_spec hdfs
    obtain ⟨hpot, hdone, hval⟩ := hspec hcyc
    -- the search found the latch, so the header has a value
    have hmemo : L.header ≠ latch → 0 ≤ st.memo L.header := by
      intro hne
      rw [Graph.value, if_neg hne] at hval
      exact hval ▸ hpos.le
    obtain ⟨hp, hsum⟩ := Graph.follow_spec hlinked _ hdone hmemo hpath
    refine ⟨latch, totals, path, hl, htot, hp, hsum.trans hval.symm, fun q hq => ?_, fun b => ?_⟩
    · rw [hval]
      exact hpot.path_le (getEnergy_nonneg hnat htot) hdone hq
    · rw [hblocks, mem_foldl_addPathBlock hn hsub path]
      simp

/-- **The recorded path is a heaviest path**: it contains every block all heaviest paths
pass. -/
theorem OnHeaviestPaths.mem_blocksOnPath {b : BlockId} (hb : L.OnHeaviestPaths C tripCount b)
    (hnat : ∀ T ∈ L.collectOutermostFirst, T.Natural C) {W : WorstCasePath}
    (hW : computeWorstCasePath C tripCount L = .ok W) : b ∈ W.blocksOnPath := by
  obtain ⟨latch, totals, p, hl, htot, hp, hsum, hle, hblocks⟩ := exists_heaviest_path hnat hW
  rw [hblocks]
  exact hb latch totals hl htot p hp fun q hq => hsum ▸ hle q hq

end Bao.Milp.Loop
