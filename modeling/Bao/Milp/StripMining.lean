import Bao.Machine.Visits

/-!
# Loop strip mining

`LoopStripMiningPass` turns a loop into a nest of two loops whose inner loop runs at most `K`
iterations. Two rewrites are used. `stripMineByExitRewrite` is for loops with a canonical
induction variable and one exit that compares it to a constant: the outer loop advances the
variable by `K` and the inner loop compares to a moving limit. `stripMineByChunkCounter` is for
all other loops: a counter on the back edge leaves the inner loop every `K` iterations.

A loop is modelled by its blocks (`LoopCode`): what the instructions of a block do to the state,
where its terminator goes, and the values of the header PHIs that the back edge carries. The two
rewrites give step functions on the configurations of the nest, with the new blocks under the
names of the source. Both loops of the nest carry trip count metadata; `applyReclamp` changes
the chunk size and the metadata of an existing nest.
-/

namespace Bao.Milp

/-! ### Integers -/

/-- An addition that does not wrap around. -/
theorem toNat_add_ofNat {w k : ℕ} {x : BitVec w} (h : x.toNat + k < 2 ^ w) :
    (x + BitVec.ofNat w k).toNat = x.toNat + k := by
  rw [BitVec.toNat_add, BitVec.toNat_ofNat, Nat.add_mod_mod, Nat.mod_eq_of_lt h]

/-- `CmpInst::Predicate` of integer comparisons. -/
inductive ICmpPredicate
  | eq
  | ne
  | ugt
  | uge
  | ult
  | ule
  | sgt
  | sge
  | slt
  | sle
  deriving DecidableEq, Repr

/-- The result of a comparison. -/
def ICmpPredicate.eval {w : ℕ} (a b : BitVec w) : ICmpPredicate → Bool
  | .eq => a == b
  | .ne => a != b
  | .ugt => b.ult a
  | .uge => b.ule a
  | .ult => a.ult b
  | .ule => a.ule b
  | .sgt => b.slt a
  | .sge => b.sle a
  | .slt => a.slt b
  | .sle => a.sle b

/-- `CmpInst::isTrueWhenEqual`. -/
def ICmpPredicate.isTrueWhenEqual : ICmpPredicate → Bool
  | .eq | .uge | .ule | .sge | .sle => true
  | _ => false

theorem ICmpPredicate.eval_self {w : ℕ} (p : ICmpPredicate) (a : BitVec w) :
    p.eval a a = p.isTrueWhenEqual := by
  cases p <;> simp [eval, isTrueWhenEqual, BitVec.ult, BitVec.ule, BitVec.slt, BitVec.sle]

/-! ### Loops -/

/-- Where a terminator of a loop block goes. -/
inductive Target (β ε : Type*)
  | block (b : β)
  | exit (e : ε)

/-- A loop with a preheader and a single latch: blocks `β`, header PHIs `Φ`, everything else the
code reads and writes `ρ` (other registers, memory, the outside world), and exits `ε`. Inner
loops are blocks like all others. -/
structure LoopCode (β Φ ρ ε : Type*) where
  header : β
  latch : β
  /-- The instructions of a block. -/
  exec : β → Φ → ρ → ρ
  /-- Its terminator. -/
  next : β → Φ → ρ → Target β ε
  /-- The values the back edge carries into the header PHIs. -/
  carried : Φ → ρ → Φ
  next_header : ∀ b φ s, next b φ s = .block header → b = latch

/-- A configuration of a loop: at the top of a block, or left. -/
inductive LoopConfig (β Φ ρ ε : Type*)
  | block (b : β) (φ : Φ) (s : ρ)
  | exited (e : ε) (φ : Φ) (s : ρ)

/-- What is observed of a nest of two loops: its steps, the visits of the two headers, and
whether control is inside the inner loop. -/
structure Nest (α : Type*) where
  step : α → α
  isOuterHeader : α → Bool
  isHeader : α → Bool
  inInner : α → Bool

section LoopCode

variable {β Φ ρ ε : Type*} [DecidableEq β]

/-- Execution of one block. -/
def LoopCode.step (L : LoopCode β Φ ρ ε) : LoopConfig β Φ ρ ε → LoopConfig β Φ ρ ε
  | .block b φ s =>
    match L.next b φ (L.exec b φ s) with
    | .block c =>
      if c = L.header then .block c (L.carried φ (L.exec b φ s)) (L.exec b φ s)
      else .block c φ (L.exec b φ s)
    | .exit e => .exited e φ (L.exec b φ s)
  | .exited e φ s => .exited e φ s

/-- A visit of the header. -/
def LoopCode.isHeader (L : LoopCode β Φ ρ ε) : LoopConfig β Φ ρ ε → Bool
  | .block b _ _ => b = L.header
  | .exited _ _ _ => false

/-- **What a step of a loop can do**: go on inside the iteration, take the back edge, or
leave. -/
theorem LoopCode.step_cases (L : LoopCode β Φ ρ ε) (b : β) (φ : Φ) (s : ρ) :
    (∃ c, L.next b φ (L.exec b φ s) = .block c ∧ c ≠ L.header ∧
        L.step (.block b φ s) = .block c φ (L.exec b φ s)) ∨
      (L.next b φ (L.exec b φ s) = .block L.header ∧
        L.step (.block b φ s) =
          .block L.header (L.carried φ (L.exec b φ s)) (L.exec b φ s)) ∨
      ∃ e, L.next b φ (L.exec b φ s) = .exit e ∧
        L.step (.block b φ s) = .exited e φ (L.exec b φ s) := by
  rw [step]
  cases hnext : L.next b φ (L.exec b φ s) with
  | block c =>
    by_cases hc : c = L.header
    · exact .inr (.inl ⟨by rw [hc], by simp [hc]⟩)
    · exact .inl ⟨c, rfl, hc, by simp [hc]⟩
  | exit e => exact .inr (.inr ⟨e, rfl, rfl⟩)

/-! ### `stripMineByChunkCounter` -/

/-- A configuration of a chunked nest with a counter of width `w`. -/
inductive ChunkConfig (w : ℕ) (β Φ ρ ε : Type*)
  | outerHeader (φ : Φ) (s : ρ)
  | block (counter : BitVec w) (b : β) (φ : Φ) (s : ρ)
  | counterCheck (counter : BitVec w) (φ : Φ) (s : ρ)
  | outerLatch (φ : Φ) (s : ρ)
  | exited (e : ε) (φ : Φ) (s : ρ)

/-- Execution of one block of the chunked nest. The back edge goes to `counter.check`, which
returns to the header, or after `K` rounds to `outer.latch`; the PHIs of `outer.header` hold the
values of the header PHIs in between. -/
def LoopCode.chunkStep {w : ℕ} (L : LoopCode β Φ ρ ε) (K : BitVec w) :
    ChunkConfig w β Φ ρ ε → ChunkConfig w β Φ ρ ε
  | .outerHeader φ s => .block 0 L.header φ s
  | .block counter b φ s =>
    match L.next b φ (L.exec b φ s) with
    | .block c =>
      if c = L.header then .counterCheck counter φ (L.exec b φ s)
      else .block counter c φ (L.exec b φ s)
    | .exit e => .exited e φ (L.exec b φ s)
  | .counterCheck counter φ s =>
    if counter + 1 = K then .outerLatch φ s
    else .block (counter + 1) L.header (L.carried φ s) s
  | .outerLatch φ s => .outerHeader (L.carried φ s) s
  | .exited e φ s => .exited e φ s

/-- The nest `stripMineByChunkCounter` produces; `counter.check` is a block of the inner
loop. -/
def LoopCode.chunkNest (L : LoopCode β Φ ρ ε) (w K : ℕ) : Nest (ChunkConfig w β Φ ρ ε) where
  step := L.chunkStep (BitVec.ofNat w K)
  isOuterHeader
    | .outerHeader _ _ => true
    | _ => false
  isHeader
    | .block _ b _ _ => b = L.header
    | _ => false
  inInner
    | .block _ _ _ _ | .counterCheck _ _ _ => true
    | _ => false

theorem LoopCode.exists_of_isOuterHeader {w K : ℕ} {L : LoopCode β Φ ρ ε}
    {c : ChunkConfig w β Φ ρ ε} (h : (L.chunkNest w K).isOuterHeader c = true) :
    ∃ φ s, c = .outerHeader φ s := by
  cases c <;> simp [chunkNest] at h ⊢

end LoopCode

/-! ### `stripMineByExitRewrite` -/

/-- The exit test of a loop: the operand that is not the induction variable is the bound. -/
structure ExitCmp where
  predicate : ICmpPredicate
  boundOperandIdx : Fin 2
  compareUsesCurrentIV : Bool
  /-- The branch leaves the loop when the comparison is true. -/
  exitOnTrue : Bool

/-- The branch stays in the loop when the operand of the induction variable is `x`. -/
def ExitCmp.test {w : ℕ} (c : ExitCmp) (x bound : BitVec w) : Bool :=
  (if c.boundOperandIdx = 1 then c.predicate.eval x bound else c.predicate.eval bound x) !=
    c.exitOnTrue

/-- The loop goes on at a value of the induction variable. -/
def ExitCmp.stays {w : ℕ} (c : ExitCmp) (iv bound : BitVec w) : Bool :=
  c.test (if c.compareUsesCurrentIV then iv else iv + 1) bound

/-- Whether equal operands stay in the loop does not depend on their value. -/
theorem ExitCmp.test_self {w : ℕ} (c : ExitCmp) (a b : BitVec w) : c.test a a = c.test b b := by
  simp only [test, ICmpPredicate.eval_self]

/-- A loop with a canonical induction variable of width `w` (from `0` in steps of `1`) and a
single exit, at the header or at the latch, that compares the variable to a constant. `Ψ` are
the other header PHIs. -/
structure ExitLoop (w : ℕ) (β Ψ ρ : Type*) where
  header : β
  latch : β
  exiting : β
  exitCmp : ExitCmp
  origBound : BitVec w
  exec : β → BitVec w → Ψ → ρ → ρ
  /-- The successor of a block other than the exiting one. -/
  next : β → BitVec w → Ψ → ρ → β
  /-- The successor of the exiting block inside the loop. -/
  inside : β
  carried : BitVec w → Ψ → ρ → Ψ
  exiting_eq : exiting = header ∨ exiting = latch
  inside_eq_header : inside = header ↔ exiting = latch
  next_eq_header : ∀ b i ψ s, next b i ψ s = header → b = latch

/-- A configuration of a nest with rewritten exit. -/
inductive ExitConfig (w : ℕ) (β Ψ ρ : Type*)
  | outerHeader (outerIV : BitVec w) (ψ : Ψ) (s : ρ)
  | block (outerIV : BitVec w) (b : β) (iv : BitVec w) (ψ : Ψ) (s : ρ)
  | outerLatch (outerIV : BitVec w) (iv : BitVec w) (ψ : Ψ) (s : ρ)
  | exited (iv : BitVec w) (ψ : Ψ) (s : ρ)

namespace ExitLoop

variable {w : ℕ} {β Ψ ρ : Type*} [DecidableEq β] (L : ExitLoop w β Ψ ρ)

/-- The loop whose exit compares to a given bound. -/
def code (bound : BitVec w) : LoopCode β (BitVec w × Ψ) ρ Unit where
  header := L.header
  latch := L.latch
  exec b φ s := L.exec b φ.1 φ.2 s
  next b φ s :=
    if b = L.exiting then
      if L.exitCmp.stays φ.1 bound then .block L.inside else .exit ()
    else .block (L.next b φ.1 φ.2 s)
  carried φ s := (φ.1 + 1, L.carried φ.1 φ.2 s)
  next_header b φ s h := by
    split_ifs at h with hb hstay
    · exact hb.trans (L.inside_eq_header.mp (by simpa using h))
    · exact L.next_eq_header b φ.1 φ.2 s (by simpa using h)

/-- The exit is at the latch. -/
def exitAtLatch : Bool := L.exiting = L.latch

/-- The part of `matchExitRewriteForm` that is not the shape of the loop: the constant is the
bound that belongs to a trip count of `N`. -/
def matchExitRewriteForm (N : ℕ) : Bool :=
  if L.exitCmp.compareUsesCurrentIV && L.exitAtLatch then
    N ≠ 0 && L.origBound.toNat = N - 1
  else L.origBound.toNat = N

/-- `inner.limit`: the end of the chunk, or of the loop. -/
def innerLimit (N K : ℕ) (outerIV : BitVec w) : BitVec w :=
  if (outerIV + BitVec.ofNat w K).ult (BitVec.ofNat w N) then outerIV + BitVec.ofNat w K
  else BitVec.ofNat w N

/-- `inner.exit.bound`. -/
def innerExitBound (N K : ℕ) (outerIV : BitVec w) : BitVec w :=
  if L.exitCmp.compareUsesCurrentIV && L.exitAtLatch then innerLimit N K outerIV - 1
  else innerLimit N K outerIV

/-- The values `outer.latch` forwards to the next chunk: the header PHIs themselves if the exit
is taken before the body, otherwise what the back edge would carry. -/
def forward (iv : BitVec w) (ψ : Ψ) (s : ρ) : Ψ :=
  if L.exiting = L.header ∧ L.latch ≠ L.header then ψ else L.carried iv ψ s

/-- Execution of one block of the nest. -/
def exitStep (N K : ℕ) : ExitConfig w β Ψ ρ → ExitConfig w β Ψ ρ
  | .outerHeader outerIV ψ s => .block outerIV L.header outerIV ψ s
  | .block outerIV b iv ψ s =>
    match (L.code (L.innerExitBound N K outerIV)).step (.block b (iv, ψ) s) with
    | .block c φ s' => .block outerIV c φ.1 φ.2 s'
    | .exited _ φ s' => .outerLatch outerIV φ.1 φ.2 s'
  | .outerLatch outerIV iv ψ s =>
    if (outerIV + BitVec.ofNat w K).ult (BitVec.ofNat w N) then
      .outerHeader (outerIV + BitVec.ofNat w K) (L.forward iv ψ s) s
    else .exited iv ψ s
  | .exited iv ψ s => .exited iv ψ s

/-- The nest `stripMineByExitRewrite` produces. -/
def exitNest (N K : ℕ) : Nest (ExitConfig w β Ψ ρ) where
  step := L.exitStep N K
  isOuterHeader
    | .outerHeader _ _ _ => true
    | _ => false
  isHeader
    | .block _ b _ _ _ => b = L.header
    | _ => false
  inInner
    | .block _ _ _ _ _ => true
    | _ => false

theorem exists_of_isOuterHeader {N K : ℕ} {L : ExitLoop w β Ψ ρ} {c : ExitConfig w β Ψ ρ}
    (h : (L.exitNest N K).isOuterHeader c = true) : ∃ o ψ s, c = .outerHeader o ψ s := by
  cases c <;> simp [exitNest] at h ⊢

end ExitLoop

/-! ### Trip counts and plans -/

/-- `getConstantTripCount`, given the constant backedge-taken count of scalar evolution. -/
def getConstantTripCount (backedgeTakenCount : Option ℕ) (exitAtLatch : Bool) : Option ℕ :=
  match backedgeTakenCount with
  | none => none
  | some n =>
    if 2 ^ 64 ≤ n then none
    else if exitAtLatch && n = 2 ^ 64 - 1 then none
    else if exitAtLatch then some (n + 1)
    else some n

/-- `LoopRewritePlan`: the trip count (`0` if unknown) and the chunk size. -/
structure LoopRewritePlan where
  N : ℕ
  K : ℕ
  deriving DecidableEq

/-- The checks of `buildRewritePlan` on the candidate chunk size. -/
def acceptsChunkSize (K : ℕ) : Bool := 1 < K && K < 2 ^ 32

/-- `tryStripMiningPlan`. -/
def ExitLoop.tryStripMiningPlan {w : ℕ} {β Ψ ρ : Type*} [DecidableEq β] (L : ExitLoop w β Ψ ρ)
    (backedgeTakenCount : Option ℕ) (K : ℕ) : Option LoopRewritePlan :=
  match getConstantTripCount backedgeTakenCount L.exitAtLatch with
  | none => none
  | some N =>
    if acceptsChunkSize K && L.matchExitRewriteForm N && 2 ≤ N && K < N then some ⟨N, K⟩
    else none

/-- `buildChunkingPlan`: the exact trip count if there is one, otherwise the marker. -/
def buildChunkingPlan (exactTripCount markerTripCount : Option ℕ) (counterWidth K : ℕ) :
    Option LoopRewritePlan :=
  let knownTC := exactTripCount <|> markerTripCount
  if !acceptsChunkSize K then none
  else if knownTC.any (· ≤ K) then none
  else if 2 ^ counterWidth ≤ K then none
  else some ⟨knownTC.getD 0, K⟩

/-! ### Trip count metadata -/

/-- What later passes see of a nest: the chunk size in the code and the trip count metadata of
the two loops. -/
structure StripMined where
  K : ℕ
  inner : ℕ
  outer : Option ℕ
  deriving DecidableEq

/-- The metadata `stripMineByExitRewrite` sets; the arithmetic is `uint64_t`. -/
def stripMineByExitRewrite (plan : LoopRewritePlan) : StripMined :=
  ⟨plan.K, plan.K, some ((plan.N + plan.K - 1) % 2 ^ 64 / plan.K)⟩

/-- The metadata `stripMineByChunkCounter` sets. -/
def stripMineByChunkCounter (plan : LoopRewritePlan) : StripMined :=
  ⟨plan.K, plan.K, if 0 < plan.N then some (1 + (plan.N - 1) / plan.K) else none⟩

/-- `rescaleOuterTripCount`. -/
def rescaleOuterTripCount (outer : Option ℕ) (currentK newK : ℕ) : Option ℕ :=
  outer.map fun t => (t * currentK + newK - 1) % 2 ^ 64 / newK

/-- A successful `ChunkBudgetResult`. -/
structure ChunkBudget where
  maxK : ℕ
  pos : 0 < maxK
  lt : maxK < 2 ^ 32

/-- `applyReclamp` on a nest whose counter or induction variable has width `w`. The current
chunk size is read from the metadata; the update fails if the code has another one or if the new
one does not fit. -/
def StripMined.applyReclamp (w : ℕ) (st : StripMined) : Option ChunkBudget → StripMined
  | none => st
  | some budget =>
    if budget.maxK = st.inner then st
    else if st.K = st.inner ∧ budget.maxK < 2 ^ w then
      ⟨budget.maxK, budget.maxK, rescaleOuterTripCount st.outer st.inner budget.maxK⟩
    else st

end Bao.Milp
