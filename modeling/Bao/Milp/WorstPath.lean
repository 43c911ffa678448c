import Bao.Milp.LoopEnergy

/-!
# The worst-case path is the longest path of the collapsed body

In the collapsed body of a loop, each direct sub-loop is one vertex, under the name of its
header, with edges to its exit blocks; the back edge to the header is left out
(`CollapsedStep`). `IsWorstPath` says what `computeWorstCasePath` is for: its energy is the
maximum over all paths of the collapsed body from the header to the latch, where a block weighs
its energy and a sub-loop its trip count times its own worst path, and its blocks are those of
a path that attains the maximum.

The search stops at the latch. It therefore looks at the paths that arrive there once; if the
collapsed body has no cycle, there are no others (`CollapsedPath.firstArrival`). A cycle that is
reached without passing the latch makes the computation fail (`not_ok_of_cycle`).
-/

namespace Bao.Milp.Loop

variable (C : CFGAnalysis) (tripCount : Loop → Option ℕ) (L : Loop)

/-! ### The collapsed body -/

/-- An edge of the collapsed body. -/
def CollapsedStep (latch b c : BlockId) : Prop :=
  c ∈ L.blocks ∧ ¬(b = latch ∧ c = L.header) ∧
    ((∃ S ∈ L.subLoops, S.header = b ∧ c ∈ S.getExitBlocks C) ∨
      (∀ S ∈ L.subLoops, S.header ≠ b) ∧ C.Succ b c)

/-- A path of the collapsed body from the header to the latch. -/
structure CollapsedPath (latch : BlockId) (p : List BlockId) : Prop where
  head : p.head? = some L.header
  last : p.getLast? = some latch
  chain : List.IsChain (L.CollapsedStep C latch) p

/-- The path is at the latch for the first time. -/
structure FirstArrival (latch : BlockId) (p : List BlockId) : Prop
    extends CollapsedPath C L latch p where
  not_before : latch ∉ p.dropLast

/-- The collapsed body has no cycle. -/
def CollapsedAcyclic (latch : BlockId) : Prop :=
  ∀ b, ¬Relation.TransGen (L.CollapsedStep C latch) b b

/-- A step that does not pass the latch. -/
def StepBeforeLatch (latch b c : BlockId) : Prop := b ≠ latch ∧ L.CollapsedStep C latch b c

/-- A cycle of the collapsed body that the header reaches without passing the latch. -/
def CycleBeforeLatch (latch : BlockId) : Prop :=
  ∃ b, Relation.ReflTransGen (L.StepBeforeLatch C latch) L.header b ∧
    Relation.TransGen (L.StepBeforeLatch C latch) b b

/-- **The worst path.** Its energy is the maximum over the paths of the collapsed body, with the
worst paths of the sub-loops, and its blocks are those of a path that attains the maximum,
together with all blocks of the sub-loops on it. -/
def IsWorstPath (L : Loop) (W : WorstCasePath) : Prop :=
  ∃ latch weight, L.getLoopLatch C = some latch ∧
    (∀ b, (∀ S ∈ L.subLoops, S.header ≠ b) → weight b = C.energyCost b) ∧
    (∀ S, ∀ _ : S ∈ L.subLoops, ∃ tc V, tripCount S = some tc ∧ IsWorstPath S V ∧
      weight S.header = V.energy * tc) ∧
    IsGreatest {e | ∃ p, L.FirstArrival C latch p ∧ (p.map weight).sum = e} W.energy ∧
    ∃ p, L.FirstArrival C latch p ∧ (p.map weight).sum = W.energy ∧
      ∀ b, b ∈ W.blocksOnPath ↔ b ∈ p ∨ ∃ S ∈ L.subLoops, S.header ∈ p ∧ b ∈ S.blocks
termination_by sizeOf L
decreasing_by
  rename_i hS
  exact sizeOf_subLoop_lt hS

variable {C tripCount L}

/-- The successors of the search are the edges of the collapsed body. -/
theorem mem_searchSuccs (hn : L.Natural C) (hsub : ∀ S ∈ L.subLoops, S.Natural C)
    {latch b c : BlockId} : c ∈ L.searchSuccs C latch b ↔ L.CollapsedStep C latch b c := by
  have hsuccs : c ∈ L.getSuccs C b ↔ (∃ S ∈ L.subLoops, S.header = b ∧ c ∈ S.getExitBlocks C) ∨
      (∀ S ∈ L.subLoops, S.header ≠ b) ∧ C.Succ b c := by
    by_cases hb : ∃ S ∈ L.subLoops, S.header = b
    · obtain ⟨S, hS, rfl⟩ := hb
      rw [getSuccs, hn.getDirectChildLoop_eq hS (hsub S hS).header_mem]
      simp only [if_true]
      refine ⟨fun hc => .inl ⟨S, hS, rfl, hc⟩, ?_⟩
      rintro (⟨T, hT, hTS, hc⟩ | ⟨hno, -⟩)
      · rwa [hn.subLoop_unique hS hT (hsub S hS).header_mem (hTS ▸ (hsub T hT).header_mem)]
      · exact absurd rfl (hno S hS)
    · have hno : ∀ S ∈ L.subLoops, S.header ≠ b := fun S hS heq => hb ⟨S, hS, heq⟩
      have hown : L.getSuccs C b = C.successors b := by
        rw [getSuccs]
        split
        · rename_i S hfind
          rw [if_neg (hno S (List.mem_of_find?_eq_some hfind))]
        · rfl
      rw [hown]
      refine ⟨fun hc => .inr ⟨hno, hc⟩, ?_⟩
      rintro (⟨S, hS, heq, -⟩ | ⟨-, hc⟩)
      · exact absurd heq (hno S hS)
      · exact hc
  rw [searchSuccs, List.mem_filter, hsuccs, CollapsedStep, Bool.and_eq_true, decide_eq_true_eq,
    Bool.not_eq_true', Bool.and_eq_false_iff, decide_eq_false_iff_not, decide_eq_false_iff_not,
    not_and_or]
  exact and_comm.trans and_assoc

/-! ### Paths -/

/-- A chain whose steps avoid a start does not have it before its end. -/
private theorem isChain_and_ne {R : BlockId → BlockId → Prop} {t : BlockId} {p : List BlockId} :
    List.IsChain (fun a c => a ≠ t ∧ R a c) p ↔ List.IsChain R p ∧ t ∉ p.dropLast := by
  induction p with
  | nil => simp
  | cons a p ih =>
    cases p with
    | nil => simp
    | cons c p =>
      rw [List.isChain_cons_cons, ih, List.isChain_cons_cons, List.dropLast_cons_cons,
        List.mem_cons, not_or, ne_comm (a := a)]
      tauto

/-- The paths of the search are those that arrive at the latch for the first time. -/
theorem isPath_iff_firstArrival (hn : L.Natural C) (hsub : ∀ S ∈ L.subLoops, S.Natural C)
    {latch : BlockId} {p : List BlockId} :
    Graph.IsPath (L.searchSuccs C latch) latch L.header p ↔ L.FirstArrival C latch p := by
  have hrel : (fun a c => a ≠ latch ∧ c ∈ L.searchSuccs C latch a) =
      fun a c => a ≠ latch ∧ L.CollapsedStep C latch a c := by
    funext a c
    rw [mem_searchSuccs hn hsub]
  constructor
  · rintro ⟨hhead, hlast, hchain⟩
    rw [hrel, isChain_and_ne] at hchain
    exact ⟨⟨hhead, hlast, hchain.1⟩, hchain.2⟩
  · rintro ⟨⟨hhead, hlast, hchain⟩, hnot⟩
    refine ⟨hhead, hlast, ?_⟩
    rw [hrel, isChain_and_ne]
    exact ⟨hchain, hnot⟩

/-- A chain from a vertex to a later one. -/
private theorem transGen_of_mem_dropLast {R : BlockId → BlockId → Prop} {t : BlockId}
    {p : List BlockId} (hchain : List.IsChain R p) (hlast : p.getLast? = some t)
    (hmem : t ∈ p.dropLast) : Relation.TransGen R t t := by
  have hreach : ∀ {a q}, List.IsChain R (a :: q) → (a :: q).getLast? = some t → q ≠ [] →
      Relation.TransGen R a t := by
    intro a q
    induction q generalizing a with
    | nil => exact fun _ _ h => absurd rfl h
    | cons c q ih =>
      intro hchain hlast _
      obtain ⟨hac, hrest⟩ := List.isChain_cons_cons.mp hchain
      rw [List.getLast?_cons_cons] at hlast
      cases q with
      | nil =>
        obtain rfl : c = t := by simpa using hlast
        exact .single hac
      | cons d q => exact .head hac (ih hrest hlast (List.cons_ne_nil d q))
  induction p with
  | nil => exact absurd hmem List.not_mem_nil
  | cons a p ih =>
    cases p with
    | nil => simp at hmem
    | cons c p =>
      rw [List.dropLast_cons_cons] at hmem
      rcases List.mem_cons.mp hmem with rfl | hmem
      · exact hreach hchain hlast (List.cons_ne_nil c p)
      · exact ih (List.isChain_cons_cons.mp hchain).2
          (by rwa [List.getLast?_cons_cons] at hlast) hmem

/-- **Without cycles, every path is at the latch only once.** -/
theorem CollapsedPath.firstArrival {latch : BlockId} {p : List BlockId}
    (hp : L.CollapsedPath C latch p) (hacyclic : L.CollapsedAcyclic C latch) :
    L.FirstArrival C latch p :=
  ⟨hp, fun hmem => hacyclic latch (transGen_of_mem_dropLast hp.chain hp.last hmem)⟩

/-! ### Exactness -/

/-- **The computed path is the worst path**, by induction on the nest: the totals of the
sub-loops are those of their worst paths. -/
theorem computeWorstCasePath_isWorstPath (L : Loop)
    (hnat : ∀ T ∈ L.collectOutermostFirst, T.Natural C) {W : WorstCasePath}
    (hW : computeWorstCasePath C tripCount L = .ok W) : IsWorstPath C tripCount L W := by
  induction L using nest_induction generalizing W with
  | step L ih =>
    have hn := hnat L L.self_mem_nest
    have hsub : ∀ S ∈ L.subLoops, S.Natural C := fun S hS => hnat S (subLoop_mem_nest hS)
    obtain ⟨latch, totals, p, hl, htot, hp, hsum, hle, hblocks⟩ := exists_heaviest_path hnat hW
    have hpath := (isPath_iff_firstArrival hn hsub).mp hp
    rw [IsWorstPath]
    refine ⟨latch, getEnergy C totals, hl, fun b hb => getEnergy_of_ne_header htot hb,
      fun S hS => ?_, ⟨⟨p, hpath, hsum⟩, ?_⟩, p, hpath, hsum, fun b => ?_⟩
    · obtain ⟨tc, V, htc, hV, htotal⟩ := total_of_subLoop hn htot hS (hsub S hS)
      exact ⟨tc, V, htc,
        ih S hS (fun T hT => hnat T (mem_nest_trans hT (subLoop_mem_nest hS))) hV, htotal⟩
    · rintro e ⟨q, hq, rfl⟩
      exact hle q ((isPath_iff_firstArrival hn hsub).mpr hq)
    · rw [hblocks]
      constructor
      · rintro ⟨c, hc, rfl | ⟨S, hS, rfl, hb⟩⟩
        · exact .inl hc
        · exact .inr ⟨S, hS, hc, hb⟩
      · rintro (hb | ⟨S, hS, hc, hb⟩)
        · exact ⟨b, hb, .inl rfl⟩
        · exact ⟨S.header, hc, .inr ⟨S, hS, rfl, hb⟩⟩

/-- **Cycles make the computation fail.** -/
theorem not_ok_of_cycle (hn : L.Natural C) (hsub : ∀ S ∈ L.subLoops, S.Natural C)
    {latch : BlockId} (hl : L.getLoopLatch C = some latch) (hcycle : L.CycleBeforeLatch C latch)
    (W : WorstCasePath) : computeWorstCasePath C tripCount L ≠ .ok W := by
  intro hW
  obtain ⟨latch', totals, hl', -, hbody⟩ := computeWorstCasePath_ok hW
  obtain rfl : latch = latch' := Option.some.inj (hl.symm.trans hl')
  have hstep : L.StepBeforeLatch C latch = Graph.StepBefore (L.searchSuccs C latch) latch := by
    funext a c
    rw [StepBeforeLatch, Graph.StepBefore, mem_searchSuccs hn hsub]
  obtain ⟨b, hreach, hloop⟩ := hcycle
  rw [hstep] at hreach hloop
  by_cases hhl : L.header = latch
  · -- nothing is reached without passing the latch
    rcases Relation.ReflTransGen.cases_head hreach with rfl | ⟨c, hc, -⟩
    · obtain ⟨c, hc, -⟩ := Relation.TransGen.head'_iff.mp hloop
      exact hc.1 hhl
    · exact hc.1 hhl
  · obtain ⟨st, path, hdfs, hcyc, -⟩ := searchBody_ok hhl hbody
    exact Graph.dfs_acyclic hdfs hcyc hreach hloop

end Bao.Milp.Loop
