import Bao.Graph.WorstCase
import Bao.Schematic.EnergyPropagation

/-!
# Worst-case energies

After `propagateEnergyLeft` the `E_left` of a block should be at most the seed energy less the
energies of the blocks on any walk to it, with the remaining iterations of the marked loops that the
walk enters; `propagateEnergyToLeave` is the mirror image. The energies only ever move in the safe
direction (`LeftIsWorstCase`, `ToLeaveIsWorstCase`).

The search records an edge as a child unless it has been visited before. If a walk to a join is
longer than another one, the edges after the join are visited before the last edge of the longer
walk, and what that walk costs does not reach them. In the same way a marked loop is paid for at the
first edge into it that is processed, and not at a second one. The bounds hold if neither happens
(`WalksCarefully`).
-/

namespace Bao.Schematic

open Bao.Graph.Propagation

namespace SchematicSolution

variable (solution : SchematicSolution) (graph : SchematicGraph) (ctx : Context)
  (loopScope : Option Loop)

/-! ### The charges of a walk -/

/-- The header of the marked loop a block belongs to. -/
def markedHeader (bb : Option Block) : Option BasicBlock :=
  (bb.bind fun b => (solution.blockMeta b).loop).map LoopMark.header

/-- What the remaining iterations of the loop of a block cost. -/
def remainingIterations (bb : Option Block) : ℚ :=
  match bb.bind fun b => (solution.blockMeta b).loop with
  | none => 0
  | some mark => ((mark.nbIter + (2 ^ 32 - 1)) % 2 ^ 32 : ℕ) * mark.costOneIt

/-- The execution energy of a block; a seed may lack one. -/
def execEnergy (bb : Option Block) : ℚ :=
  bb.elim 0 fun b => solution.getBlockExecEnergy b ctx.cfg ctx.state ctx.params

/-- A walk pays for a marked loop once. -/
theorem walkCharge_eq (blockOf : SeedEdge → Option Block) :
    (fun seen e => solution.walkCharge ctx seen (blockOf e)) =
      onceCharge (fun e => solution.markedHeader (blockOf e))
        (fun e => solution.remainingIterations (blockOf e))
          (fun e => solution.execEnergy ctx (blockOf e)) := by
  funext seen e
  cases hb : blockOf e with
  | none => simp only [walkCharge, onceCharge, markedHeader, execEnergy, hb, Option.bind_none,
      Option.map_none, Option.elim_none]
  | some b =>
    cases hloop : (solution.blockMeta b).loop with
    | none => simp only [walkCharge, loopIterationCharge, onceCharge, markedHeader, execEnergy, hb,
        hloop, Option.bind_some, Option.map_none, Option.elim_some, zero_add]
    | some mark =>
      by_cases hseen : mark.header ∈ seen
      · simp only [walkCharge, loopIterationCharge, onceCharge, markedHeader, execEnergy, hb, hloop,
          Option.bind_some, Option.map_some, Option.elim_some, if_pos hseen, zero_add]
      · simp only [walkCharge, loopIterationCharge, onceCharge, markedHeader, execEnergy,
          remainingIterations, hb, hloop, Option.bind_some, Option.map_some, Option.elim_some,
          if_neg hseen]

/-! ### What a propagation promises -/

/-- What the blocks of a walk from a seed edge to another edge cost: their execution energies and,
for every marked loop that the walk enters, other than the loop of the seed, its remaining
iterations. -/
def pathEnergy (blockOf : SeedEdge → Option Block) (seedEdge : SeedEdge) (w : List SeedEdge)
    (e : SeedEdge) : ℚ :=
  walkCost (fun seen e => solution.walkCharge ctx seen (blockOf e))
    (solution.markSeedLoopSeen (blockOf seedEdge)) (w ++ [e])

/-- **`E_left` is worst-case**: no walk leaves a block with less energy, and no `E_left` has gone
up. -/
def LeftIsWorstCase (seedEdge : SeedEdge) (seedELeft : WithTop ℚ) : Prop :=
  (∀ w e b, Walk (solution.forwardEdges graph ctx loopScope) seedEdge w e → e.2 = some b →
    ((solution.propagateEnergyLeft graph ctx seedEdge seedELeft loopScope).blockMeta b).E_left ≤
      seedELeft.map (· - solution.pathEnergy ctx Prod.snd seedEdge w e)) ∧
  ∀ b, ((solution.propagateEnergyLeft graph ctx seedEdge seedELeft loopScope).blockMeta b).E_left ≤
    (solution.blockMeta b).E_left

/-- **`E_to_leave` is worst-case**: no backward walk needs more energy, and no `E_to_leave` has gone
down. -/
def ToLeaveIsWorstCase (seedEdge : SeedEdge) (seedEToLeave : ℚ) : Prop :=
  (∀ w e b, Walk (solution.backwardEdges graph ctx loopScope) seedEdge w e → e.1 = some b →
    seedEToLeave + solution.pathEnergy ctx Prod.fst seedEdge w e ≤
      ((solution.propagateEnergyToLeave graph ctx seedEdge seedEToLeave loopScope).blockMeta
        b).E_to_leave) ∧
  ∀ b, (solution.blockMeta b).E_to_leave ≤
    ((solution.propagateEnergyToLeave graph ctx seedEdge seedEToLeave loopScope).blockMeta
      b).E_to_leave

/-- **A walk without surprises**: the breadth-first order of its edges is a topological order, and
no marked loop with iterations left to pay, other than the loop of the seed, is entered by two
edges. -/
structure WalksCarefully (next : SeedEdge → List SeedEdge) (blockOf : SeedEdge → Option Block)
    (seedEdge : SeedEdge) : Prop where
  topological : OrderIsTopological next (walkFuel graph) seedEdge
  once : EntersOnce next seedEdge (fun e => solution.markedHeader (blockOf e))
    (fun e => solution.remainingIterations (blockOf e))
      (solution.markSeedLoopSeen (blockOf seedEdge))

/-! ### Updates -/

variable {solution graph ctx loopScope}

/-- A measure that no step of a fold increases ends up below all that the steps bring it to. -/
private theorem foldl_le {α β γ : Type*} [Preorder γ] {f : α → β → α} {m : α → γ} {P : β → Prop}
    {x : β → γ} (hmono : ∀ a b, m (f a b) ≤ m a) (hstep : ∀ a b, P b → m (f a b) ≤ x b) (l : List β)
    (a : α) : m (l.foldl f a) ≤ m a ∧ ∀ b ∈ l, P b → m (l.foldl f a) ≤ x b := by
  induction l generalizing a with
  | nil => exact ⟨le_rfl, fun b hb => absurd hb List.not_mem_nil⟩
  | cons b l ih =>
    obtain ⟨hle, hmem⟩ := ih (f a b)
    refine ⟨hle.trans (hmono a b), fun c hc hP => ?_⟩
    rcases List.mem_cons.mp hc with rfl | hc
    · exact hle.trans (hstep a c hP)
    · exact hmem c hc hP

/-- A measure of the energies of a block is brought down to a value that is smaller. -/
private theorem measure_setMeta {γ : Type*} [LinearOrder γ] (m : BlockMetadata → γ)
    (s : SchematicSolution) (b : Block) {new : BlockMetadata} {x : γ} (hnew : m new = x) :
    (∀ b', m ((if x < m (s.blockMeta b) then s.setMeta b new else s).blockMeta b') ≤
        m (s.blockMeta b')) ∧
      m ((if x < m (s.blockMeta b) then s.setMeta b new else s).blockMeta b) ≤ x := by
  split_ifs with h
  · refine ⟨fun b' => ?_, by simp [setMeta, hnew]⟩
    by_cases hb : b' = b
    · subst hb
      simpa [setMeta, hnew] using h.le
    · simp [setMeta, hb]
  · exact ⟨fun _ => le_rfl, not_lt.mp h⟩

private theorem lowerELeft_spec (s : SchematicSolution) (b : Block) (e : WithTop ℚ) :
    (∀ b', ((s.lowerELeft b e).blockMeta b').E_left ≤ (s.blockMeta b').E_left) ∧
      ((s.lowerELeft b e).blockMeta b).E_left ≤ e :=
  measure_setMeta BlockMetadata.E_left s b rfl

private theorem raiseEToLeave_spec (s : SchematicSolution) (b : Block) (e : ℚ) :
    (∀ b', (s.blockMeta b').E_to_leave ≤ ((s.raiseEToLeave b e).blockMeta b').E_to_leave) ∧
      e ≤ ((s.raiseEToLeave b e).blockMeta b).E_to_leave :=
  measure_setMeta (fun energies => OrderDual.toDual energies.E_to_leave) s b
    (x := OrderDual.toDual e) rfl

/-- **`E_left` only goes down**, to at most what each processed edge allows. -/
private theorem propagateEnergyLeft_le (seedEdge : SeedEdge) (seedELeft : WithTop ℚ) (b : Block) :
    ((solution.propagateEnergyLeft graph ctx seedEdge seedELeft loopScope).blockMeta b).E_left ≤
        (solution.blockMeta b).E_left ∧
      ∀ p ∈ propagate (solution.forwardEdges graph ctx loopScope)
          (fun seen e => solution.walkCharge ctx seen e.2) (walkFuel graph) seedEdge 0
          (solution.markSeedLoopSeen seedEdge.2), p.1.2 = some b →
        ((solution.propagateEnergyLeft graph ctx seedEdge seedELeft loopScope).blockMeta b).E_left ≤
          seedELeft.map (· - p.2) := by
  refine foldl_le (m := fun s : SchematicSolution => (s.blockMeta b).E_left)
    (P := fun p : SeedEdge × ℚ => p.1.2 = some b)
    (x := fun p => seedELeft.map (· - p.2)) (fun s p => ?_)
    (fun s p hb => ?_) _ solution
  · cases p.1.2 with
    | none => exact le_rfl
    | some b' => exact (lowerELeft_spec s b' _).1 b
  · rw [hb]
    exact (lowerELeft_spec s b _).2

/-- **`E_to_leave` only goes up**, to at least what each processed edge needs. -/
theorem le_propagateEnergyToLeave (seedEdge : SeedEdge) (seedEToLeave : ℚ) (b : Block) :
    (solution.blockMeta b).E_to_leave ≤
        ((solution.propagateEnergyToLeave graph ctx seedEdge seedEToLeave loopScope).blockMeta
          b).E_to_leave ∧
      ∀ p ∈ propagate (solution.backwardEdges graph ctx loopScope)
          (fun seen e => solution.walkCharge ctx seen e.1) (walkFuel graph) seedEdge seedEToLeave
          (solution.markSeedLoopSeen seedEdge.1), p.1.1 = some b →
        p.2 ≤ ((solution.propagateEnergyToLeave graph ctx seedEdge seedEToLeave loopScope).blockMeta
          b).E_to_leave := by
  refine foldl_le (m := fun s : SchematicSolution => OrderDual.toDual (s.blockMeta b).E_to_leave)
    (P := fun p : SeedEdge × ℚ => p.1.1 = some b) (x := fun p => OrderDual.toDual p.2)
      (fun s p => ?_)
    (fun s p hb => ?_) _ solution
  · cases p.1.1 with
    | none => exact le_rfl
    | some b' => exact (raiseEToLeave_spec s b' _).1 b
  · rw [hb]
    exact (raiseEToLeave_spec s b _).2

/-! ### The edges of a walk -/

/-- The edges of the graph, and the seed. -/
private def walkEdges (graph : SchematicGraph) (seedEdge : SeedEdge) : Finset SeedEdge :=
  insert seedEdge (graph.edges.map fun e => (some e.src, some e.dst)).toFinset

/-- What a walk goes on with: different edges of the graph. -/
private structure FollowsEdges (graph : SchematicGraph) (next : SeedEdge → List SeedEdge) :
    Prop where
  mem : ∀ e, ∀ e' ∈ next e, ∃ c ∈ graph.edges, e' = (some c.src, some c.dst)
  length_le : ∀ e, (next e).length ≤ graph.edges.length
  nodup : graph.edges.Nodup → ∀ e, (next e).Nodup

/-- A walk goes on with the edges that have the block on one side and pass some test. -/
private theorem followsEdges (blockOf : SeedEdge → Option Block) (side other : CFGEdge → Block)
    (mk : Block → Block → SeedEdge) (outside : Block → Bool) (keep : Block → Block → Bool)
    {next : SeedEdge → List SeedEdge}
    (hmk : ∀ c : CFGEdge, mk (side c) (other c) = (some c.src, some c.dst))
    (hinj : ∀ b, Function.Injective (mk b))
    (hnext : ∀ e, next e = match blockOf e with
      | none => []
      | some b => if outside b then [] else
          (((graph.edges.filter fun c => side c = b).map other).filter (keep b)).map (mk b)) :
    FollowsEdges graph next := by
  -- an edge is known from its two sides
  have hside : ∀ c c' : CFGEdge, side c = side c' → other c = other c' → c = c' := by
    intro c c' h h'
    have hpair : (some c.src, some c.dst) = (some c'.src, some c'.dst) := by
      rw [← hmk, ← hmk, h, h']
    cases c
    cases c'
    simpa using hpair
  refine ⟨fun e e' he' => ?_, fun e => ?_, fun hgraph e => ?_⟩ <;> rw [hnext] at *
  · cases hb : blockOf e with
    | none => simp [hb] at he'
    | some b =>
      simp only [hb] at he'
      split_ifs at he' with hout
      · cases he'
      · obtain ⟨o, ho, rfl⟩ := List.mem_map.mp he'
        obtain ⟨c, hc, rfl⟩ := List.mem_map.mp (List.mem_of_mem_filter ho)
        obtain ⟨hc, hcb⟩ := List.mem_filter.mp hc
        exact ⟨c, hc, of_decide_eq_true hcb ▸ hmk c⟩
  · cases blockOf e with
    | none => exact Nat.zero_le _
    | some b =>
      dsimp only
      split_ifs
      · exact Nat.zero_le _
      · rw [List.length_map]
        refine (List.length_filter_le _ _).trans ?_
        rw [List.length_map]
        exact List.length_filter_le _ _
  · cases blockOf e with
    | none => exact List.nodup_nil
    | some b =>
      dsimp only
      split_ifs
      · exact List.nodup_nil
      · refine (((hgraph.filter _).map_on fun c hc c' hc' h => ?_).filter _).map (hinj b)
        refine hside c c' ?_ h
        rw [of_decide_eq_true (List.mem_filter.mp hc).2,
          of_decide_eq_true (List.mem_filter.mp hc').2]

private theorem forwardEdges_follows :
    FollowsEdges graph (solution.forwardEdges graph ctx loopScope) :=
  followsEdges Prod.snd CFGEdge.src CFGEdge.dst (fun b c => (some b, some c))
    (outsideScope loopScope)
    (fun b c => solution.isDisabledForward graph ctx ⟨b, c⟩ && !outsideScope loopScope c)
    (fun _ => rfl) (fun _ _ _ h => by simpa using h) fun _ => rfl

private theorem backwardEdges_follows :
    FollowsEdges graph (solution.backwardEdges graph ctx loopScope) :=
  followsEdges Prod.fst CFGEdge.dst CFGEdge.src (fun b c => (some c, some b))
    (outsideScope loopScope)
    (fun b c => solution.isDisabledForward graph ctx ⟨c, b⟩ && !outsideScope loopScope c)
    (fun _ => rfl) (fun _ _ _ h => by simpa using h) fun _ => rfl

private theorem FollowsEdges.mem_walkEdges {next : SeedEdge → List SeedEdge}
    (h : FollowsEdges graph next) (seedEdge : SeedEdge) {e e' : SeedEdge} (he' : e' ∈ next e) :
    e' ∈ walkEdges graph seedEdge := by
  obtain ⟨c, hc, rfl⟩ := h.mem e e' he'
  exact Finset.mem_insert_of_mem (List.mem_toFinset.mpr (List.mem_map.mpr ⟨c, hc, rfl⟩))

/-- The fuel suffices for a search over the edges of the graph. -/
private theorem walkFuel_le {next : SeedEdge → List SeedEdge} (seedEdge : SeedEdge)
    (hlength : ∀ e, (next e).length ≤ graph.edges.length) :
    1 + ∑ e ∈ walkEdges graph seedEdge, (next e).length ≤ walkFuel graph := by
  have hcard : (walkEdges graph seedEdge).card ≤ graph.edges.length + 1 := by
    refine (Finset.card_insert_le _ _).trans ?_
    refine Nat.add_le_add_right ((List.toFinset_card_le _).trans ?_) 1
    rw [List.length_map]
  have hsum : ∑ e ∈ walkEdges graph seedEdge, (next e).length ≤
      (walkEdges graph seedEdge).card * graph.edges.length := by
    rw [← smul_eq_mul]
    exact Finset.sum_le_card_nsmul _ _ _ fun e _ => hlength e
  have hmul := Nat.mul_le_mul_right graph.edges.length hcard
  rw [walkFuel]
  nlinarith

/-- An energy below the charges of a walk is below the charges of any larger amount. -/
private theorem map_sub_le_map_sub (e : WithTop ℚ) {x y : ℚ} (h : x ≤ y) :
    e.map (· - y) ≤ e.map (· - x) := by
  cases e with
  | top => exact le_rfl
  | coe q => exact WithTop.coe_le_coe.mpr (sub_le_sub_left h q)

end SchematicSolution

/-- **When the energies are worst-case**: it is enough that the walk meets its edges in a
topological order and enters no marked loop by two edges. -/
theorem propagation_worst_case (solution : SchematicSolution) (graph : SchematicGraph)
    (ctx : Context)
    (loopScope : Option Loop) (seedEdge : SeedEdge) (seedELeft : WithTop ℚ) (seedEToLeave : ℚ)
    (hgraph : graph.edges.Nodup)
    (hmarks : ∀ b mark, (solution.blockMeta b).loop = some mark → 0 ≤ mark.costOneIt) :
    (solution.WalksCarefully graph (solution.forwardEdges graph ctx loopScope) Prod.snd seedEdge →
        solution.LeftIsWorstCase graph ctx loopScope seedEdge seedELeft) ∧
      (solution.WalksCarefully graph (solution.backwardEdges graph ctx loopScope) Prod.fst
        seedEdge →
        solution.ToLeaveIsWorstCase graph ctx loopScope seedEdge seedEToLeave) := by
  have hextra : ∀ bb, 0 ≤ solution.remainingIterations bb := by
    intro bb
    rw [SchematicSolution.remainingIterations]
    cases hmark : bb.bind fun b => (solution.blockMeta b).loop with
    | none => exact le_rfl
    | some mark =>
      obtain ⟨b, -, hb⟩ := Option.bind_eq_some_iff.mp hmark
      exact mul_nonneg (Nat.cast_nonneg _) (hmarks b mark hb)
  -- an edge of a walk is processed with at least what the walk costs
  have hprocessed : ∀ {next : SeedEdge → List SeedEdge} (blockOf : SeedEdge → Option Block),
      SchematicSolution.FollowsEdges graph next →
      solution.WalksCarefully graph next blockOf seedEdge → ∀ (v₀ : ℚ) {w e},
      Walk next seedEdge w e → ∃ v, (e, v) ∈ propagate next
          (fun seen e => solution.walkCharge ctx seen (blockOf e))
          (SchematicSolution.walkFuel graph) seedEdge v₀
          (solution.markSeedLoopSeen (blockOf seedEdge)) ∧
        v₀ + solution.pathEnergy ctx blockOf seedEdge w e ≤ v := by
    intro next blockOf hnext hcareful v₀ w e hw
    rw [SchematicSolution.pathEnergy, solution.walkCharge_eq ctx blockOf]
    exact propagate_worst_case (fun e => solution.execEnergy ctx (blockOf e)) (hnext.nodup hgraph)
      (Finset.mem_insert_self _ _) (fun _ _ _ he => hnext.mem_walkEdges seedEdge he)
      (SchematicSolution.walkFuel_le seedEdge hnext.length_le) (fun e => hextra (blockOf e))
      hcareful.topological hcareful.once v₀ hw
  refine ⟨fun hcareful => ⟨fun w e b hw hb => ?_, fun b => ?_⟩,
    fun hcareful => ⟨fun w e b hw hb => ?_, fun b => ?_⟩⟩
  · obtain ⟨v, hv, hle⟩ := hprocessed Prod.snd SchematicSolution.forwardEdges_follows hcareful 0 hw
    rw [zero_add] at hle
    calc ((solution.propagateEnergyLeft graph ctx seedEdge seedELeft loopScope).blockMeta b).E_left
        ≤ seedELeft.map (· - v) :=
          (SchematicSolution.propagateEnergyLeft_le seedEdge seedELeft b).2 (e, v) hv hb
      _ ≤ seedELeft.map (· - solution.pathEnergy ctx Prod.snd seedEdge w e) :=
          SchematicSolution.map_sub_le_map_sub _ hle
  · exact (SchematicSolution.propagateEnergyLeft_le seedEdge seedELeft b).1
  · obtain ⟨v, hv, hle⟩ := hprocessed Prod.fst SchematicSolution.backwardEdges_follows hcareful
      seedEToLeave hw
    calc seedEToLeave + solution.pathEnergy ctx Prod.fst seedEdge w e
        ≤ v := hle
      _ ≤ ((solution.propagateEnergyToLeave graph ctx seedEdge seedEToLeave loopScope).blockMeta
            b).E_to_leave :=
          (SchematicSolution.le_propagateEnergyToLeave seedEdge seedEToLeave b).2 (e, v) hv hb
  · exact (SchematicSolution.le_propagateEnergyToLeave seedEdge seedEToLeave b).1

/-! ### Joins -/

/-- Every block costs `1`. -/
def unitContext : Context where
  cfg := ⟨[], [], fun _ => 1⟩
  state := ⟨[], fun _ _ => 0, fun _ _ => 0, fun _ _ => none, fun _ => 0, fun _ => false⟩
  params := ⟨10, 0, 0, 0, 0, 0, 0, 0, 0, 0, 0, 0, .stable⟩
  LI := {}

/-- No edge has a checkpoint. -/
def allDisabled (graph : SchematicGraph) : SchematicSolution where
  checkpointStates := graph.edges.foldl (fun m e => m.insert e .disabled) ∅

/-- Block `0` goes to block `3` through block `1` or block `2`, and block `3` to block `4`. -/
def diamondGraph : SchematicGraph where
  edges := [⟨.real 0, .real 1⟩, ⟨.real 0, .real 2⟩, ⟨.real 1, .real 3⟩, ⟨.real 2, .real 3⟩,
    ⟨.real 3, .real 4⟩]

/-- Both ways through the diamond are equally long. -/
theorem propagation_worst_case_diamond :
    (allDisabled diamondGraph).LeftIsWorstCase diamondGraph unitContext none (none, some (.real 0))
        ((10 : ℚ) : WithTop ℚ) ∧
      (allDisabled diamondGraph).ToLeaveIsWorstCase diamondGraph unitContext none
        (some (.real 4), none) 1 := by
  have hunmarked : ∀ blockOf : SeedEdge → Option Block, ∀ e,
      (allDisabled diamondGraph).markedHeader (blockOf e) = none := by
    intro blockOf e
    cases blockOf e <;> simp [SchematicSolution.markedHeader, allDisabled]
  have honce : ∀ next seedEdge, ∀ blockOf : SeedEdge → Option Block,
      EntersOnce next seedEdge (fun e => (allDisabled diamondGraph).markedHeader (blockOf e))
        (fun e => (allDisabled diamondGraph).remainingIterations (blockOf e))
        ((allDisabled diamondGraph).markSeedLoopSeen (blockOf seedEdge)) := by
    intro next seedEdge blockOf l n n' _ hn
    exact absurd ((hunmarked blockOf n).symm.trans hn.1) (by simp)
  have hboth := propagation_worst_case (allDisabled diamondGraph) diamondGraph unitContext none
    (none, some (.real 0)) ((10 : ℚ) : WithTop ℚ) 1 (by decide) (by simp [allDisabled])
  have hleave := propagation_worst_case (allDisabled diamondGraph) diamondGraph unitContext none
    (some (.real 4), none) ((10 : ℚ) : WithTop ℚ) 1 (by decide) (by simp [allDisabled])
  refine ⟨hboth.1 ⟨?_, honce _ _ _⟩, hleave.2 ⟨?_, honce _ _ _⟩⟩
  · rw [OrderIsTopological]
    decide +kernel
  · rw [OrderIsTopological]
    decide +kernel

/-- Block `0` goes to block `3` at once or through blocks `1` and `2`, and block `3` to block
`4`. -/
def joinGraph : SchematicGraph where
  edges := [⟨.real 0, .real 3⟩, ⟨.real 0, .real 1⟩, ⟨.real 1, .real 2⟩, ⟨.real 2, .real 3⟩,
    ⟨.real 3, .real 4⟩]

/-- **The longer way does not reach beyond the join.** Five blocks of energy `1` leave `5` of `10`,
but `E_left` of the last block is `7`. -/
theorem propagateEnergyLeft_misses_longer_walk :
    joinGraph.edges.Nodup ∧
      ¬(allDisabled joinGraph).LeftIsWorstCase joinGraph unitContext none (none, some (.real 0))
        ((10 : ℚ) : WithTop ℚ) := by
  refine ⟨by decide, fun h => ?_⟩
  have hwalk : Walk ((allDisabled joinGraph).forwardEdges joinGraph unitContext none)
      (none, some (.real 0))
      [(none, some (.real 0)), (some (.real 0), some (.real 1)), (some (.real 1), some (.real 2)),
        (some (.real 2), some (.real 3))] (some (.real 3), some (.real 4)) :=
    .step (.step (.step (.step .start (by decide +kernel)) (by decide +kernel))
      (by decide +kernel)) (by decide +kernel)
  have hle := h.1 _ _ (.real 4) hwalk rfl
  revert hle
  decide +kernel

end Bao.Schematic
