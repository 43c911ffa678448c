import Bao.Milp.StripMining

/-!
# The trip count metadata of strip-mined loops

`AbstractCFG` multiplies the energy of an iteration by the trip count metadata, so the metadata
has to bound the number of times a header is executed. This file says when the metadata of a
strip-mined nest does (`strip_mined_within_trip_counts`), for both rewrites and after any
sequence of re-clamps.

The outer loop is governed by one invariant, that the outer trip count times the chunk size
covers the iterations of the original loop (`Reclamped.covers`); every re-clamp keeps it because
`rescaleOuterTripCount` rounds up. Three things go wrong outside the theorem.

* A loop that leaves from its header executes the header once more than its body, so a full
  chunk of `K` iterations executes the inner header `K + 1` times.
* With `outer.iv` close to the end of its range, `outer.iv + K` wraps around and the nest starts
  over.
* The trip count of a loop that does not leave from its latch counts the iterations of the body.
  If `K` divides it, the chunk counter enters one more chunk for the last visit of the header.
-/

namespace Bao.Milp

open Machine

/-- **The metadata bounds the headers.** Each entry to the inner loop, that is each step from the
outer header, executes the inner header at most as often as the inner trip count says, and one
entry to the outer loop executes the outer header at most as often as the outer trip count
says. -/
def Nest.WithinTripCounts {α : Type*} (M : Nest α) (entry : α) (st : StripMined) : Prop :=
  (∀ n, M.isOuterHeader (M.step^[n] entry) = true → ∀ m,
    visits M.step M.isHeader (fun c => !M.inInner c) m (M.step (M.step^[n] entry)) ≤ st.inner) ∧
  ∀ t ∈ st.outer, ∀ m, visits M.step M.isOuterHeader (fun _ => false) m entry ≤ t

/-! ### Re-clamps -/

/-- The nests reached by re-clamps in which the outer trip count does not overflow. -/
inductive Reclamped (w : ℕ) (init : StripMined) : StripMined → Prop
  | init : Reclamped w init init
  | step {st : StripMined} (budget : Option ChunkBudget) (h : Reclamped w init st)
      (hfits : ∀ t ∈ st.outer, ∀ b ∈ budget, t * st.inner + b.maxK - 1 < 2 ^ 64) :
      Reclamped w init (st.applyReclamp w budget)

/-- Division rounding up covers the dividend. -/
theorem le_ceil_mul (a : ℕ) {k : ℕ} (hk : 0 < k) : a ≤ (a + k - 1) / k * k := by
  have hlt := Nat.lt_div_mul_add hk (a := a + k - 1)
  omega

/-- What holds of a nest: the metadata of the inner loop is the chunk size, which fits the
counter, and the outer loop covers `T` iterations. -/
structure StripMined.Covers (w T : ℕ) (st : StripMined) : Prop where
  inner_eq : st.inner = st.K
  pos : 0 < st.K
  lt : st.K < 2 ^ w
  outer : ∀ t ∈ st.outer, T ≤ t * st.K

/-- A re-clamp keeps the invariant. -/
theorem StripMined.Covers.applyReclamp {w T : ℕ} {st : StripMined} (h : st.Covers w T)
    (budget : Option ChunkBudget)
    (hfits : ∀ t ∈ st.outer, ∀ b ∈ budget, t * st.inner + b.maxK - 1 < 2 ^ 64) :
    (st.applyReclamp w budget).Covers w T := by
  cases budget with
  | none => exact h
  | some b =>
    rw [StripMined.applyReclamp]
    split_ifs with heq hnew
    · exact h
    · refine ⟨rfl, b.pos, hnew.2, fun t ht => ?_⟩
      obtain ⟨u, hu, rfl⟩ := Option.map_eq_some_iff.mp ht
      rw [Nat.mod_eq_of_lt (hfits u hu b rfl), h.inner_eq]
      exact (h.outer u hu).trans (le_ceil_mul _ b.pos)
    · exact h

/-- Every sequence of re-clamps keeps the invariant. -/
theorem Reclamped.covers {w T : ℕ} {init st : StripMined} (h : Reclamped w init st)
    (hinit : init.Covers w T) : st.Covers w T := by
  induction h with
  | init => exact hinit
  | step budget _ hfits ih => exact ih.applyReclamp budget hfits

/-- A known trip count is exact at the latch and one short of the header visits elsewhere. -/
theorem getConstantTripCount_eq {btc : Option ℕ} {exitAtLatch : Bool} {N : ℕ}
    (h : getConstantTripCount btc exitAtLatch = some N) :
    ∃ n, btc = some n ∧ N = if exitAtLatch then n + 1 else n := by
  cases btc with
  | none => simp [getConstantTripCount] at h
  | some n =>
    refine ⟨n, rfl, ?_⟩
    simp only [getConstantTripCount] at h
    split_ifs at h ⊢
    · simpa using h.symm
    · simpa using h.symm

/-! ### The chunk counter -/

namespace LoopCode

variable {w : ℕ} {β Φ ρ ε : Type*} [DecidableEq β] {L : LoopCode β Φ ρ ε} {K : ℕ}

/-- From a configuration on, a run of the loop visits the header at most `R` times. -/
def HeaderBound (L : LoopCode β Φ ρ ε) (R : ℕ) (c : LoopConfig β Φ ρ ε) : Prop :=
  ∀ n, visits L.step L.isHeader (fun _ => false) n c ≤ R

/-- A step uses up the visit it makes. -/
theorem HeaderBound.step {R : ℕ} {c : LoopConfig β Φ ρ ε} (h : L.HeaderBound R c) :
    ∃ R', L.HeaderBound R' (L.step c) ∧ (if L.isHeader c then 1 else 0) + R' ≤ R := by
  have hsucc : ∀ n, (if L.isHeader c then 1 else 0) +
      visits L.step L.isHeader (fun _ => false) n (L.step c) ≤ R := by
    intro n
    rw [← visits_succ]
    exact h (n + 1)
  refine ⟨R - if L.isHeader c then 1 else 0, fun n => ?_, ?_⟩
  · have := hsucc n
    omega
  · have := hsucc 0
    omega

/-- **What a step of the chunked nest can do** inside the original blocks: go on inside the
iteration, take the back edge to `counter.check`, or leave. -/
theorem chunkStep_cases (kv counter : BitVec w) (b : β) (φ : Φ) (s : ρ) :
    (∃ c, c ≠ L.header ∧ L.step (.block b φ s) = .block c φ (L.exec b φ s) ∧
        L.chunkStep kv (.block counter b φ s) = .block counter c φ (L.exec b φ s)) ∨
      (L.step (.block b φ s) = .block L.header (L.carried φ (L.exec b φ s)) (L.exec b φ s) ∧
        L.chunkStep kv (.block counter b φ s) = .counterCheck counter φ (L.exec b φ s)) ∨
      ∃ e, L.chunkStep kv (.block counter b φ s) = .exited e φ (L.exec b φ s) := by
  rcases L.step_cases b φ s with ⟨c, hnext, hc, hstep⟩ | ⟨hnext, hstep⟩ | ⟨e, hnext, -⟩
  · exact .inl ⟨c, hc, hstep, by simp [chunkStep, hnext, hc]⟩
  · exact .inr (.inl ⟨hstep, by simp [chunkStep, hnext]⟩)
  · exact .inr (.inr ⟨e, by simp [chunkStep, hnext]⟩)

/-- The counter does not pass the chunk size. -/
private theorem counter_succ {counter : BitVec w} (hK : K < 2 ^ w) (hlt : counter.toNat < K) :
    (counter + 1).toNat = counter.toNat + 1 ∧
      (counter + 1 = BitVec.ofNat w K ↔ counter.toNat + 1 = K) := by
  have hsucc : (counter + 1).toNat = counter.toNat + 1 := toNat_add_ofNat (k := 1) (by omega)
  refine ⟨hsucc, ?_⟩
  rw [← BitVec.toNat_inj, hsucc, BitVec.toNat_ofNat, Nat.mod_eq_of_lt hK]

/-- The header visits that remain of a chunk. -/
private def ChunkRank (L : LoopCode β Φ ρ ε) (K : ℕ) : ChunkConfig w β Φ ρ ε → ℕ → Prop
  | .block counter b _ _, r =>
    counter.toNat < K ∧ K ≤ counter.toNat + r + if b = L.header then 0 else 1
  | .counterCheck counter _ _, r => counter.toNat < K ∧ K ≤ counter.toNat + r + 1
  | _, _ => True

/-- **A chunk executes the header at most `K` times.** -/
theorem chunk_header_le (hK : K < 2 ^ w) (hpos : 0 < K) (φ : Φ) (s : ρ) (m : ℕ) :
    visits (L.chunkNest w K).step (L.chunkNest w K).isHeader
      (fun c => !(L.chunkNest w K).inInner c) m
      ((L.chunkNest w K).step (.outerHeader φ s)) ≤ K := by
  refine visits_le (ChunkRank L K) (fun c r hrank hin => ?_) m ?_
  · cases c with
    | outerHeader φ s => simp [chunkNest] at hin
    | outerLatch φ s => simp [chunkNest] at hin
    | exited e φ s => simp [chunkNest] at hin
    | block counter b φ s =>
      obtain ⟨hlt, hle⟩ := hrank
      rcases L.chunkStep_cases (BitVec.ofNat w K) counter b φ s with
        ⟨c, hc, -, hstep⟩ | ⟨-, hstep⟩ | ⟨e, hstep⟩
      · refine ⟨r - if b = L.header then 1 else 0, ?_, ?_⟩
        · simp only [chunkNest, hstep, ChunkRank, if_neg hc]
          split_ifs at hle ⊢ <;> omega
        · simp only [chunkNest, decide_eq_true_eq]
          split_ifs at hle ⊢ <;> omega
      · refine ⟨r - if b = L.header then 1 else 0, ?_, ?_⟩
        · simp only [chunkNest, hstep, ChunkRank]
          split_ifs at hle ⊢ <;> omega
        · simp only [chunkNest, decide_eq_true_eq]
          split_ifs at hle ⊢ <;> omega
      · refine ⟨0, ?_, ?_⟩
        · simp only [chunkNest, hstep, ChunkRank]
        · simp only [chunkNest, decide_eq_true_eq]
          split_ifs at hle ⊢ <;> omega
    | counterCheck counter φ s =>
      obtain ⟨hlt, hle⟩ := hrank
      obtain ⟨hsucc, hdone⟩ := counter_succ hK hlt
      refine ⟨r, ?_, by simp [chunkNest]⟩
      simp only [chunkNest, chunkStep, hdone]
      split_ifs with hend
      · trivial
      · exact ⟨by omega, by simp only [hsucc, if_true]; omega⟩
  · simp [chunkNest, chunkStep, ChunkRank, hpos]

/-- A configuration at the header has a visit left. -/
theorem HeaderBound.pos {R : ℕ} {φ : Φ} {s : ρ} (h : L.HeaderBound R (.block L.header φ s)) :
    0 < R := by
  have := h 1
  simp only [visits, isHeader, decide_true, if_true, Bool.false_eq_true, if_false] at this
  omega

/-- The outer visits that remain: `r` chunks, and the rest of the current one, cover the header
visits the original loop has left. -/
private def OuterRank (L : LoopCode β Φ ρ ε) (K : ℕ) : ChunkConfig w β Φ ρ ε → ℕ → Prop
  | .outerHeader φ s, r => ∃ R, L.HeaderBound R (.block L.header φ s) ∧ R ≤ r * K
  | .block counter b φ s, r => counter.toNat < K ∧ ∃ R, L.HeaderBound R (.block b φ s) ∧
      R + counter.toNat + (if b = L.header then 0 else 1) ≤ r * K + K
  | .counterCheck counter φ s, r => counter.toNat < K ∧
      ∃ R, L.HeaderBound R (.block L.header (L.carried φ s) s) ∧
        R + counter.toNat + 1 ≤ r * K + K
  | .outerLatch φ s, r =>
    ∃ R, L.HeaderBound R (.block L.header (L.carried φ s) s) ∧ R ≤ r * K
  | .exited _ _ _, _ => True

/-- **The chunks cover the loop.** If `t` chunks cover the header visits of the original loop,
the outer header is executed at most `t` times. -/
theorem chunk_outerHeader_le (hK : K < 2 ^ w) (hpos : 0 < K) {φ : Φ} {s : ρ} {R t : ℕ}
    (hbound : L.HeaderBound R (.block L.header φ s)) (ht : R ≤ t * K) (m : ℕ) :
    visits (L.chunkNest w K).step (L.chunkNest w K).isOuterHeader (fun _ => false) m
      (.outerHeader φ s) ≤ t := by
  refine visits_le (OuterRank L K) (fun c r hrank _ => ?_) m ⟨R, hbound, ht⟩
  cases c with
  | exited e φ s => exact ⟨r, trivial, by simp [chunkNest]⟩
  | outerLatch φ s => exact ⟨r, hrank, by simp [chunkNest]⟩
  | outerHeader φ s =>
    obtain ⟨R, hR, hle⟩ := hrank
    obtain ⟨r, rfl⟩ : ∃ r', r = r' + 1 := by
      refine Nat.exists_eq_succ_of_ne_zero ?_
      rintro rfl
      have := hR.pos
      omega
    refine ⟨r, ⟨by simpa using hpos, R, hR, ?_⟩, by simp [chunkNest, Nat.add_comm]⟩
    rw [Nat.succ_mul] at hle
    simpa using hle
  | counterCheck counter φ s =>
    obtain ⟨hlt, R, hR, hle⟩ := hrank
    obtain ⟨hsucc, hdone⟩ := counter_succ hK hlt
    refine ⟨r, ?_, by simp [chunkNest]⟩
    simp only [chunkNest, chunkStep, hdone]
    split_ifs with hend
    · exact ⟨R, hR, by omega⟩
    · refine ⟨by omega, R, hR, ?_⟩
      simp only [hsucc, if_true]
      omega
  | block counter b φ s =>
    obtain ⟨hlt, R, hR, hle⟩ := hrank
    obtain ⟨R', hR', hused⟩ := hR.step
    have hnext : R' + counter.toNat + 1 ≤ r * K + K := by
      simp only [isHeader, decide_eq_true_eq] at hused
      split_ifs at hused hle <;> omega
    refine ⟨r, ?_, by simp [chunkNest]⟩
    rcases L.chunkStep_cases (BitVec.ofNat w K) counter b φ s with
      ⟨c, hc, horig, hstep⟩ | ⟨horig, hstep⟩ | ⟨e, hstep⟩
    · rw [horig] at hR'
      simp only [chunkNest, hstep, OuterRank, if_neg hc]
      exact ⟨hlt, R', hR', hnext⟩
    · rw [horig] at hR'
      simp only [chunkNest, hstep, OuterRank]
      exact ⟨hlt, R', hR', hnext⟩
    · simp only [chunkNest, hstep, OuterRank]

end LoopCode

/-! ### The rewritten exit -/

/-- The outer induction variable at the start of a chunk. -/
def ChunkStart {w : ℕ} (N K : ℕ) (outerIV : BitVec w) : Prop :=
  K ∣ outerIV.toNat ∧ outerIV.toNat < N

section ChunkStart

variable {w N K : ℕ} {o : BitVec w}

/-- The end of a chunk is at most `N` rounded up to a multiple of `K`. -/
theorem ChunkStart.add_le (h : ChunkStart N K o) (hpos : 0 < K) :
    o.toNat + K ≤ (N + K - 1) / K * K := by
  obtain ⟨⟨j, hj⟩, hlt⟩ := h
  have hcover := le_ceil_mul N hpos
  have hjlt : j < (N + K - 1) / K := by
    by_contra hge
    have hmul := Nat.mul_le_mul_right K (not_lt.mp hge)
    rw [Nat.mul_comm j K] at hmul
    omega
  calc o.toNat + K = (j + 1) * K := by rw [hj, Nat.succ_mul, Nat.mul_comm]
    _ ≤ (N + K - 1) / K * K := Nat.mul_le_mul_right K hjlt

variable (hpos : 0 < K) (hwrap : (N + K - 1) / K * K < 2 ^ w)
include hpos hwrap

/-- The next chunk starts `K` later, without wrapping around. -/
theorem ChunkStart.toNat_add (h : ChunkStart N K o) :
    (o + BitVec.ofNat w K).toNat = o.toNat + K :=
  toNat_add_ofNat ((h.add_le hpos).trans_lt hwrap)

theorem toNat_ofNat_tripCount : (BitVec.ofNat w N).toNat = N := by
  have := le_ceil_mul N hpos
  rw [BitVec.toNat_ofNat, Nat.mod_eq_of_lt (by omega)]

/-- The test of `outer.latch` and of the limit. -/
theorem ChunkStart.ult_iff (h : ChunkStart N K o) :
    (o + BitVec.ofNat w K).ult (BitVec.ofNat w N) = true ↔ o.toNat + K < N := by
  rw [BitVec.ult, decide_eq_true_eq, h.toNat_add hpos hwrap, toNat_ofNat_tripCount hpos hwrap]

/-- The limit of a chunk. -/
theorem ChunkStart.innerLimit_toNat (h : ChunkStart N K o) :
    (ExitLoop.innerLimit N K o).toNat = min (o.toNat + K) N := by
  have hiff := h.ult_iff hpos hwrap
  rw [ExitLoop.innerLimit]
  split_ifs with hlt
  · rw [h.toNat_add hpos hwrap]
    have := hiff.mp hlt
    omega
  · rw [toNat_ofNat_tripCount hpos hwrap]
    have := mt hiff.mpr hlt
    omega

/-- The next chunk start, if there is one. -/
theorem ChunkStart.next (h : ChunkStart N K o) (hlt : o.toNat + K < N) :
    ChunkStart N K (o + BitVec.ofNat w K) := by
  rw [ChunkStart, h.toNat_add hpos hwrap]
  exact ⟨(Nat.dvd_add_iff_left (dvd_refl K)).mp h.1, hlt⟩

end ChunkStart

namespace ExitLoop

variable {w : ℕ} {β Ψ ρ : Type*} [DecidableEq β] {L : ExitLoop w β Ψ ρ} {N K : ℕ}

/-- What scalar evolution says with a constant backedge-taken count: the exit is first taken at
that value of the induction variable. -/
def BackedgeTaken (L : ExitLoop w β Ψ ρ) (n : ℕ) : Prop :=
  n < 2 ^ w ∧ (∀ i < n, L.exitCmp.stays (BitVec.ofNat w i) L.origBound = true) ∧
    L.exitCmp.stays (BitVec.ofNat w n) L.origBound = false

instance (L : ExitLoop w β Ψ ρ) (n : ℕ) : Decidable (L.BackedgeTaken n) :=
  inferInstanceAs (Decidable (_ ∧ _ ∧ _))

/-- **What a step of the nest can do** inside the original blocks: go on inside the iteration,
take the back edge, or end the chunk. -/
theorem exitStep_cases (o : BitVec w) (b : β) (i : BitVec w) (ψ : Ψ) (s : ρ) :
    (∃ c s', c ≠ L.header ∧
        (b = L.exiting → L.exitCmp.stays i (L.innerExitBound N K o) = true) ∧
        L.exitStep N K (.block o b i ψ s) = .block o c i ψ s') ∨
      (∃ ψ' s', b = L.latch ∧
        (b = L.exiting → L.exitCmp.stays i (L.innerExitBound N K o) = true) ∧
        L.exitStep N K (.block o b i ψ s) = .block o L.header (i + 1) ψ' s') ∨
      ∃ s', b = L.exiting ∧ L.exitCmp.stays i (L.innerExitBound N K o) = false ∧
        L.exitStep N K (.block o b i ψ s) = .outerLatch o i ψ s' := by
  set C := L.code (L.innerExitBound N K o)
  have hstay : ∀ {s' c}, C.next b (i, ψ) s' = .block c → b = L.exiting →
      L.exitCmp.stays i (L.innerExitBound N K o) = true := by
    intro s' c hnext hb
    simp only [C, code, if_pos hb] at hnext
    split_ifs at hnext with h
    exact h
  rcases C.step_cases b (i, ψ) s with ⟨c, hnext, hc, hstep⟩ | ⟨hnext, hstep⟩ | ⟨e, hnext, hstep⟩
  · exact .inl ⟨c, _, hc, hstay hnext, by rw [exitStep, hstep]⟩
  · exact .inr (.inl ⟨_, _, C.next_header _ _ _ hnext, hstay hnext, by rw [exitStep, hstep]; rfl⟩)
  · refine .inr (.inr ⟨_, ?_, ?_, by rw [exitStep, hstep]⟩)
    · by_contra hb
      simp [C, code, hb] at hnext
    · simp only [C, code] at hnext
      split_ifs at hnext with hb hstays
      exact Bool.eq_false_of_not_eq_true hstays

/-- What the plan of an exit rewrite consists of. -/
theorem tryStripMiningPlan_spec {btc : Option ℕ} {k : ℕ} {plan : LoopRewritePlan}
    (h : L.tryStripMiningPlan btc k = some plan) :
    (∃ n, btc = some n ∧ plan.N = if L.exitAtLatch then n + 1 else n) ∧
      L.matchExitRewriteForm plan.N = true ∧ 1 < plan.K ∧ plan.K < plan.N := by
  rw [tryStripMiningPlan] at h
  split at h
  · simp at h
  · rename_i T hT
    split_ifs at h with hok
    obtain rfl : _ = plan := by simpa using h
    simp only [Bool.and_eq_true, decide_eq_true_eq, acceptsChunkSize] at hok
    exact ⟨getConstantTripCount_eq hT, hok.1.1.2, hok.1.1.1.1, hok.2⟩

section Planned

variable {n : ℕ} (hbtc : L.BackedgeTaken n) (hmatch : L.matchExitRewriteForm N = true)
include hbtc hmatch

/-- At the latch, equal operands leave the loop: the original bound is met at the exit. -/
theorem test_self_of_exitAtLatch (hlatch : L.exitAtLatch = true) (hN : N = n + 1)
    (b : BitVec w) : L.exitCmp.test b b = false := by
  obtain ⟨hn, -, hexit⟩ := hbtc
  rw [matchExitRewriteForm, hlatch, Bool.and_true] at hmatch
  rw [ExitCmp.stays] at hexit
  rw [L.exitCmp.test_self b L.origBound]
  split_ifs at hmatch hexit with hcur
  · have hbound : BitVec.ofNat w n = L.origBound := by
      refine BitVec.eq_of_toNat_eq ?_
      rw [BitVec.toNat_ofNat, Nat.mod_eq_of_lt hn]
      simp only [Bool.and_eq_true, decide_eq_true_eq] at hmatch
      omega
    rwa [hbound] at hexit
  · have hbound : BitVec.ofNat w n + 1 = L.origBound := by
      simp only [decide_eq_true_eq] at hmatch
      have hlt := L.origBound.isLt
      have hnat : (BitVec.ofNat w n).toNat = n := by
        rw [BitVec.toNat_ofNat, Nat.mod_eq_of_lt hn]
      refine BitVec.eq_of_toNat_eq ?_
      have hsucc := toNat_add_ofNat (k := 1) (x := BitVec.ofNat w n) (by omega)
      exact hsucc.trans (by omega)
    rwa [hbound] at hexit

/-- **The end of a chunk**: a latch-exiting loop does not go on from the last value before the
limit. -/
theorem stays_chunk_end (hlatch : L.exitAtLatch = true) (hN : N = n + 1) {o i : BitVec w}
    (hi : i.toNat + 1 = (innerLimit N K o).toNat) :
    L.exitCmp.stays i (L.innerExitBound N K o) = false := by
  have hself := test_self_of_exitAtLatch hbtc hmatch hlatch hN
  have hlimit : i + 1 = innerLimit N K o := by
    refine BitVec.eq_of_toNat_eq ?_
    have hlt := (innerLimit N K o).isLt
    exact (toNat_add_ofNat (k := 1) (by omega)).trans hi
  rw [ExitCmp.stays, innerExitBound, hlatch, Bool.and_true]
  split_ifs with hcur
  · rw [← hlimit, BitVec.add_sub_cancel]
    exact hself i
  · rw [hlimit]
    exact hself _

end Planned

/-- The outer visits that remain: `r` chunks cover the iterations from the chunk start on, or
from the next one. -/
private def OuterRank (N K : ℕ) : ExitConfig w β Ψ ρ → ℕ → Prop
  | .outerHeader o _ _, r => ChunkStart N K o ∧ N ≤ o.toNat + r * K
  | .block o _ _ _ _, r => ChunkStart N K o ∧ N ≤ o.toNat + (r + 1) * K
  | .outerLatch o _ _ _, r => ChunkStart N K o ∧ N ≤ o.toNat + (r + 1) * K
  | .exited _ _ _, _ => True

section Nest

variable (hpos : 0 < K) (hwrap : (N + K - 1) / K * K < 2 ^ w)
include hpos hwrap

/-- One step of the nest uses up the visit of the outer header it makes. -/
private theorem outerRank_step (c : ExitConfig w β Ψ ρ) (r : ℕ) (hrank : OuterRank N K c r) :
    ∃ r', OuterRank N K (L.exitStep N K c) r' ∧
      (if (L.exitNest N K).isOuterHeader c then 1 else 0) + r' ≤ r := by
  cases c with
  | exited i ψ s => exact ⟨r, trivial, by simp [exitNest]⟩
  | outerHeader o ψ s =>
    obtain ⟨hstart, hle⟩ := hrank
    obtain ⟨r, rfl⟩ : ∃ r', r = r' + 1 := by
      refine Nat.exists_eq_succ_of_ne_zero ?_
      rintro rfl
      have := hstart.2
      omega
    exact ⟨r, ⟨hstart, hle⟩, by simp [exitNest, Nat.add_comm]⟩
  | outerLatch o i ψ s =>
    obtain ⟨hstart, hle⟩ := hrank
    refine ⟨r, ?_, by simp [exitNest]⟩
    rw [exitStep]
    split_ifs with hlt
    · refine ⟨hstart.next hpos hwrap ((hstart.ult_iff hpos hwrap).mp hlt), ?_⟩
      rw [hstart.toNat_add hpos hwrap]
      rw [Nat.succ_mul] at hle
      omega
    · trivial
  | block o b i ψ s =>
    refine ⟨r, ?_, by simp [exitNest]⟩
    rcases L.exitStep_cases (N := N) (K := K) o b i ψ s with
      ⟨c, s', -, -, hstep⟩ | ⟨ψ', s', -, -, hstep⟩ | ⟨s', -, -, hstep⟩
    · rw [hstep]
      exact hrank
    · rw [hstep]
      exact hrank
    · rw [hstep]
      exact hrank

/-- The outer header is executed at most `t` times if `t` chunks cover the loop. -/
theorem exit_outerHeader_le (hN : 0 < N) {t : ℕ} (ht : N ≤ t * K) (ψ : Ψ) (s : ρ) (m : ℕ) :
    visits (L.exitNest N K).step (L.exitNest N K).isOuterHeader (fun _ => false) m
      (.outerHeader 0 ψ s) ≤ t := by
  refine visits_le (OuterRank N K) (fun c r hrank _ => outerRank_step hpos hwrap c r hrank) m ?_
  exact ⟨⟨by simp, by simpa using hN⟩, by simpa using ht⟩

/-- Every visit of the outer header is at a chunk start. -/
theorem chunkStart_of_outerHeader (hN : 0 < N) {ψ : Ψ} {s : ρ} (k : ℕ)
    (houter : (L.exitNest N K).isOuterHeader
      ((L.exitNest N K).step^[k] (.outerHeader 0 ψ s)) = true) :
    ∃ o ψ' s', (L.exitNest N K).step^[k] (.outerHeader 0 ψ s) = .outerHeader o ψ' s' ∧
      ChunkStart N K o := by
  have hinv : ∃ r, OuterRank N K ((L.exitNest N K).step^[k] (.outerHeader 0 ψ s)) r := by
    have hentry : OuterRank N K (.outerHeader 0 ψ s : ExitConfig w β Ψ ρ) N :=
      ⟨⟨by simp, by simpa using hN⟩, by simpa using Nat.le_mul_of_pos_right N hpos⟩
    refine Function.Iterate.rec (fun c => ∃ r, OuterRank N K c r) ⟨N, hentry⟩ (fun c hc => ?_) k
    obtain ⟨r, hr⟩ := hc
    obtain ⟨r', hr', -⟩ := L.outerRank_step hpos hwrap c r hr
    exact ⟨r', hr'⟩
  obtain ⟨o, ψ', s', hc⟩ := exists_of_isOuterHeader houter
  rw [hc] at hinv ⊢
  obtain ⟨r, hr⟩ := hinv
  exact ⟨o, ψ', s', rfl, hr.1⟩

end Nest

/-- The header visits that remain of a chunk of a latch-exiting loop. -/
private def LatchRank (L : ExitLoop w β Ψ ρ) (N K : ℕ) : ExitConfig w β Ψ ρ → ℕ → Prop
  | .block o b i _ _, r => i.toNat < (innerLimit N K o).toNat ∧
      (innerLimit N K o).toNat ≤ i.toNat + r + if b = L.header then 0 else 1
  | _, _ => True

/-- The header visits that remain of a header-exiting loop in its only chunk. -/
private def HeaderRank (L : ExitLoop w β Ψ ρ) (N K : ℕ) : ExitConfig w β Ψ ρ → ℕ → Prop
  | .block o b i _ _, r => L.innerExitBound N K o = L.origBound ∧
      if b = L.header then i.toNat ≤ N ∧ N + 1 ≤ i.toNat + r else i.toNat < N ∧ N ≤ i.toNat + r
  | _, _ => True

section Planned

variable {n : ℕ} (hbtc : L.BackedgeTaken n) (hmatch : L.matchExitRewriteForm N = true)
include hbtc hmatch

/-- A step inside a chunk of a latch-exiting loop. -/
private theorem latchRank_step (hlatch : L.exitAtLatch = true) (hN : N = n + 1) {o i : BitVec w}
    {b : β} {ψ : Ψ} {s : ρ} {r : ℕ} (hrank : LatchRank L N K (.block o b i ψ s) r) :
    ∃ r', LatchRank L N K (L.exitStep N K (.block o b i ψ s)) r' ∧
      (if b = L.header then 1 else 0) + r' ≤ r := by
  obtain ⟨hlt, hle⟩ := hrank
  have hexiting : L.exiting = L.latch := by simpa [exitAtLatch] using hlatch
  rcases L.exitStep_cases (N := N) (K := K) o b i ψ s with
    ⟨c, s', hc, -, hstep⟩ | ⟨ψ', s', hb, hstays, hstep⟩ | ⟨s', -, -, hstep⟩
  · refine ⟨r - if b = L.header then 1 else 0, ?_, ?_⟩
    · simp only [hstep, LatchRank, if_neg hc]
      split_ifs at hle ⊢ <;> omega
    · split_ifs at hle ⊢ <;> omega
  · -- the back edge is taken before the last value only
    have hnext : i.toNat + 1 ≠ (innerLimit N K o).toNat := by
      intro hend
      have hstop := stays_chunk_end hbtc hmatch hlatch hN (K := K) hend
      rw [hstays (hb.trans hexiting.symm)] at hstop
      exact absurd hstop (by simp)
    have hbound := (innerLimit N K o).isLt
    have hsucc : (i + 1).toNat = i.toNat + 1 := toNat_add_ofNat (k := 1) (by omega)
    refine ⟨r - if b = L.header then 1 else 0, ?_, ?_⟩
    · simp only [hstep, LatchRank, hsucc, if_true]
      split_ifs at hle ⊢ <;> omega
    · split_ifs at hle ⊢ <;> omega
  · refine ⟨0, by simp only [hstep, LatchRank], ?_⟩
    split_ifs at hle ⊢ <;> omega

omit hmatch in
/-- A step inside the only chunk of a header-exiting loop. -/
private theorem headerRank_step (hlatch : L.exitAtLatch = false) (hN : N = n) {o i : BitVec w}
    {b : β} {ψ : Ψ} {s : ρ} {r : ℕ} (hrank : HeaderRank L N K (.block o b i ψ s) r) :
    ∃ r', HeaderRank L N K (L.exitStep N K (.block o b i ψ s)) r' ∧
      (if b = L.header then 1 else 0) + r' ≤ r := by
  obtain ⟨hbound, hrest⟩ := hrank
  have hne : L.exiting ≠ L.latch := by simpa [exitAtLatch] using hlatch
  have hheader : L.exiting = L.header := L.exiting_eq.resolve_right hne
  -- the header leaves at the value `N`
  have hstop : ∀ {i : BitVec w}, L.exitCmp.stays i (L.innerExitBound N K o) = true →
      i.toNat ≠ N := by
    intro i hstays hi
    have hval : i = BitVec.ofNat w n := by
      refine BitVec.eq_of_toNat_eq ?_
      rw [BitVec.toNat_ofNat, Nat.mod_eq_of_lt hbtc.1, hi, hN]
    rw [hbound, hval, hbtc.2.2] at hstays
    exact absurd hstays (by simp)
  rcases L.exitStep_cases (N := N) (K := K) o b i ψ s with
    ⟨c, s', hc, hstays, hstep⟩ | ⟨ψ', s', hb, -, hstep⟩ | ⟨s', hb, -, hstep⟩
  · refine ⟨r - if b = L.header then 1 else 0, ?_, ?_⟩
    · simp only [hstep, HeaderRank, if_neg hc]
      refine ⟨hbound, ?_⟩
      split_ifs at hrest ⊢ with hbh
      · have := hstop (hstays (hbh.trans hheader.symm))
        omega
      · omega
    · split_ifs at hrest ⊢ <;> omega
  · have hbh : b ≠ L.header := fun h => hne (hheader.trans (h.symm.trans hb))
    rw [if_neg hbh] at hrest
    have hsucc : (i + 1).toNat = i.toNat + 1 := by
      have := hbtc.1
      exact toNat_add_ofNat (k := 1) (by omega)
    refine ⟨r, ?_, by simp [hbh]⟩
    simp only [hstep, HeaderRank, hsucc, if_true]
    exact ⟨hbound, by omega, by omega⟩
  · refine ⟨0, by simp only [hstep, HeaderRank], ?_⟩
    rw [if_pos (hb.trans hheader)] at hrest ⊢
    omega

/-- **A chunk executes the header at most `K` times** if the loop leaves from its latch, or if
one chunk covers the whole loop and the last visit of the header. -/
theorem exit_header_le (hpos : 0 < K) (hwrap : (N + K - 1) / K * K < 2 ^ w)
    (hN : N = if L.exitAtLatch then n + 1 else n) (hcond : L.exitAtLatch = true ∨ N < K)
    {o : BitVec w} (hstart : ChunkStart N K o) (ψ : Ψ) (s : ρ) (m : ℕ) :
    visits (L.exitNest N K).step (L.exitNest N K).isHeader
      (fun c => !(L.exitNest N K).inInner c) m
      ((L.exitNest N K).step (.outerHeader o ψ s)) ≤ K := by
  have hlimit := hstart.innerLimit_toNat hpos hwrap
  cases hlatch : L.exitAtLatch with
  | true =>
    rw [hlatch, if_pos rfl] at hN
    refine visits_le (LatchRank L N K) (fun c r hrank hin => ?_) m ?_
    · cases c with
      | block o b i ψ s =>
        simpa [exitNest] using latchRank_step hbtc hmatch hlatch hN hrank
      | outerHeader o ψ s => simp [exitNest] at hin
      | outerLatch o i ψ s => simp [exitNest] at hin
      | exited i ψ s => simp [exitNest] at hin
    · have := hstart.2
      simp only [exitNest, exitStep, LatchRank, hlimit, if_true]
      omega
  | false =>
    rw [hlatch] at hN hcond
    have hNK : N < K := hcond.resolve_left (by simp)
    have hzero : o.toNat = 0 := Nat.eq_zero_of_dvd_of_lt hstart.1 (hstart.2.trans hNK)
    have hbound : L.innerExitBound N K o = L.origBound := by
      rw [matchExitRewriteForm, hlatch, Bool.and_false, if_neg (by simp),
        decide_eq_true_eq] at hmatch
      rw [innerExitBound, hlatch, Bool.and_false, if_neg (by simp)]
      refine BitVec.eq_of_toNat_eq ?_
      omega
    refine visits_le (HeaderRank L N K) (fun c r hrank hin => ?_) m ?_
    · cases c with
      | block o b i ψ s =>
        simpa [exitNest] using headerRank_step hbtc hlatch (by simpa using hN) hrank
      | outerHeader o ψ s => simp [exitNest] at hin
      | outerLatch o i ψ s => simp [exitNest] at hin
      | exited i ψ s => simp [exitNest] at hin
    · simp only [exitNest, exitStep, HeaderRank, if_true]
      exact ⟨hbound, by omega, by omega⟩

end Planned

/-- A nest with rewritten exit keeps within its trip counts. -/
theorem exitNest_within {n : ℕ} (hbtc : L.BackedgeTaken n)
    (hmatch : L.matchExitRewriteForm N = true) (hN : N = if L.exitAtLatch then n + 1 else n)
    (hNpos : 0 < N) {st : StripMined} (hst : st.Covers w N)
    (hcond : L.exitAtLatch = true ∨ N < st.K) (hwrap : (N + st.K - 1) / st.K * st.K < 2 ^ w)
    (ψ : Ψ) (s : ρ) : (L.exitNest N st.K).WithinTripCounts (.outerHeader 0 ψ s) st := by
  refine ⟨fun k houter m => ?_, fun t ht m => ?_⟩
  · obtain ⟨o, ψ', s', hc, hstart⟩ :=
      chunkStart_of_outerHeader hst.pos hwrap hNpos k houter
    rw [hc, hst.inner_eq]
    exact exit_header_le hbtc hmatch hst.pos hwrap hN hcond hstart ψ' s' m
  · exact exit_outerHeader_le hst.pos hwrap hNpos (hst.outer t ht) ψ s m

end ExitLoop

/-- A chunked nest keeps within its trip counts. -/
theorem LoopCode.chunkNest_within {w R : ℕ} {β Φ ρ ε : Type*} [DecidableEq β]
    {L : LoopCode β Φ ρ ε} {φ : Φ} {s : ρ} {st : StripMined} (hst : st.Covers w R)
    (hbound : st.outer ≠ none → L.HeaderBound R (.block L.header φ s)) :
    (L.chunkNest w st.K).WithinTripCounts (.outerHeader φ s) st := by
  refine ⟨fun k houter m => ?_, fun t ht m => ?_⟩
  · obtain ⟨φ', s', hc⟩ := exists_of_isOuterHeader houter
    rw [hc, hst.inner_eq]
    exact chunk_header_le hst.lt hst.pos φ' s' m
  · have hsome : st.outer ≠ none := by
      rw [Option.mem_def.mp ht]
      simp
    exact chunk_outerHeader_le hst.lt hst.pos (hbound hsome) (hst.outer t ht) m

/-! ### The theorem -/

/-- A re-clamp does not invent an outer trip count. -/
theorem Reclamped.outer_ne_none {w : ℕ} {init st : StripMined} (h : Reclamped w init st)
    (hst : st.outer ≠ none) : init.outer ≠ none := by
  induction h with
  | init => exact hst
  | @step st budget _ _ ih =>
    refine ih fun hnone => hst ?_
    cases budget with
    | none => exact hnone
    | some b =>
      rw [StripMined.applyReclamp]
      split_ifs
      · exact hnone
      · simp [rescaleOuterTripCount, hnone]
      · exact hnone

/-- What the plan of a chunk counter consists of: the known trip count is the exact one or, if
there is none, the marker. -/
theorem buildChunkingPlan_spec {exact marker : Option ℕ} {w k : ℕ} {plan : LoopRewritePlan}
    (h : buildChunkingPlan exact marker w k = some plan) :
    1 < plan.K ∧ plan.K < 2 ^ w ∧
      (0 < plan.N → exact = some plan.N ∨ exact = none ∧ marker = some plan.N) := by
  simp only [buildChunkingPlan] at h
  split_ifs at h with hK hcover hwidth
  obtain rfl : _ = plan := by simpa using h
  refine ⟨?_, by simpa using hwidth, fun hpos => ?_⟩
  · rw [Bool.not_eq_true, Bool.not_eq_false', acceptsChunkSize, Bool.and_eq_true,
      decide_eq_true_eq] at hK
    exact hK.1
  · cases exact with
    | some t => exact .inl rfl
    | none =>
      cases marker with
      | some t => exact .inr ⟨rfl, rfl⟩
      | none => simp at hpos

/-- The metadata of a new exit rewrite covers the loop. -/
theorem covers_stripMineByExitRewrite {w : ℕ} {plan : LoopRewritePlan} (hK : 1 < plan.K)
    (hfit : plan.K < 2 ^ w) (hfits : plan.N + plan.K - 1 < 2 ^ 64) :
    (stripMineByExitRewrite plan).Covers w plan.N := by
  refine ⟨rfl, Nat.zero_lt_of_lt hK, hfit, fun t ht => ?_⟩
  obtain rfl : (plan.N + plan.K - 1) % 2 ^ 64 / plan.K = t := Option.some.inj ht
  rw [Nat.mod_eq_of_lt hfits]
  exact le_ceil_mul plan.N (Nat.zero_lt_of_lt hK)

/-- The metadata of a new chunk counter covers `R` header visits if `N`, rounded up to a multiple
of `K`, does. -/
theorem covers_stripMineByChunkCounter {w R : ℕ} {plan : LoopRewritePlan} (hK : 1 < plan.K)
    (hfit : plan.K < 2 ^ w) (hR : 0 < plan.N → R ≤ (1 + (plan.N - 1) / plan.K) * plan.K) :
    (stripMineByChunkCounter plan).Covers w R := by
  refine ⟨rfl, Nat.zero_lt_of_lt hK, hfit, fun t ht => ?_⟩
  simp only [stripMineByChunkCounter, Option.mem_def] at ht
  split_ifs at ht with hN
  obtain rfl : _ = t := Option.some.inj ht
  exact hR hN

/-- Rounding up to a multiple of `K`. -/
private theorem le_round_up {N K : ℕ} (hK : 0 < K) :
    N ≤ (1 + (N - 1) / K) * K ∧ (¬K ∣ N → N + 1 ≤ (1 + (N - 1) / K) * K) := by
  have hlt := Nat.lt_div_mul_add hK (a := N - 1)
  have hmul : (1 + (N - 1) / K) * K = (N - 1) / K * K + K := by
    rw [Nat.add_mul, Nat.one_mul, Nat.add_comm]
  have hle : N ≤ (1 + (N - 1) / K) * K := by omega
  refine ⟨hle, fun hdvd => ?_⟩
  have hne : N ≠ (1 + (N - 1) / K) * K := fun heq => hdvd ⟨_, heq.trans (Nat.mul_comm _ _)⟩
  omega

/-- **When the trip count metadata bounds the headers.** After any sequence of re-clamps, with
the trip counts below `2 ^ 64`:

* a nest with rewritten exit keeps within its metadata if the loop leaves from its latch, or the
  chunk size exceeds its trip count, and the trip count rounded up to a multiple of the chunk
  size fits the induction variable;
* a chunked nest keeps within its metadata if the loop leaves from its latch, or its first chunk
  size does not divide the trip count, or the trip count is a marker that bounds the visits of
  the header.

Scalar evolution is assumed to be right: the exit is first taken at its constant backedge-taken
count, and the header is executed at most once more than that. -/
theorem strip_mined_within_trip_counts {w : ℕ} {β Ψ Φ ρ ε : Type*} [DecidableEq β]
    (L : ExitLoop w β Ψ ρ) (M : LoopCode β Φ ρ ε) :
    (∀ btc k plan, (∀ n ∈ btc, L.BackedgeTaken n) → L.tryStripMiningPlan btc k = some plan →
      plan.N + plan.K - 1 < 2 ^ 64 → ∀ st, Reclamped w (stripMineByExitRewrite plan) st →
      (L.exitAtLatch = true ∨ plan.N < st.K) →
      (plan.N + st.K - 1) / st.K * st.K < 2 ^ w → ∀ ψ s,
      (L.exitNest plan.N st.K).WithinTripCounts (.outerHeader 0 ψ s) st) ∧
    ∀ btc exitAtLatch marker counterWidth k plan φ s,
      (∀ n ∈ btc, M.HeaderBound (n + 1) (.block M.header φ s)) →
      (∀ t ∈ marker, M.HeaderBound t (.block M.header φ s)) →
      buildChunkingPlan (getConstantTripCount btc exitAtLatch) marker counterWidth k =
        some plan →
      (getConstantTripCount btc exitAtLatch ≠ none → exitAtLatch = true ∨ ¬plan.K ∣ plan.N) →
      ∀ st, Reclamped counterWidth (stripMineByChunkCounter plan) st →
      (M.chunkNest counterWidth st.K).WithinTripCounts (.outerHeader φ s) st := by
  refine ⟨fun btc k plan hscev hplan hfits st hst hcond hwrap ψ s => ?_,
    fun btc exitAtLatch marker cw k plan φ s hscev hmarker hplan hcond st hst => ?_⟩
  · obtain ⟨⟨n, hn, hN⟩, hmatch, hK, hKN⟩ := ExitLoop.tryStripMiningPlan_spec hplan
    have hbtc := hscev n hn
    have hfit : plan.K < 2 ^ w := by
      have := hbtc.1
      split_ifs at hN <;> omega
    exact ExitLoop.exitNest_within hbtc hmatch hN (by omega)
      (hst.covers (covers_stripMineByExitRewrite hK hfit hfits)) hcond hwrap ψ s
  · obtain ⟨hK, hfit, hknown⟩ := buildChunkingPlan_spec hplan
    have hround := le_round_up (N := plan.N) (Nat.zero_lt_of_lt hK)
    -- the visits of the header that the known trip count stands for
    obtain ⟨R, hR, hcover⟩ : ∃ R, (0 < plan.N → M.HeaderBound R (.block M.header φ s)) ∧
        (0 < plan.N → R ≤ (1 + (plan.N - 1) / plan.K) * plan.K) := by
      by_cases hpos : 0 < plan.N
      · rcases hknown hpos with hexact | ⟨-, hmark⟩
        · obtain ⟨n, hn, hN⟩ := getConstantTripCount_eq hexact
          refine ⟨n + 1, fun _ => hscev n hn, fun _ => ?_⟩
          split_ifs at hN with hlatch
          · exact hN ▸ hround.1
          · exact hN ▸ hround.2 ((hcond (by simp [hexact])).resolve_left hlatch)
        · exact ⟨plan.N, fun _ => hmarker plan.N hmark, fun _ => hround.1⟩
      · exact ⟨0, fun h => absurd h hpos, fun h => absurd h hpos⟩
    refine LoopCode.chunkNest_within
      (hst.covers (covers_stripMineByChunkCounter hK hfit hcover)) fun hsome => hR ?_
    by_contra hzero
    exact hst.outer_ne_none hsome (by simp [stripMineByChunkCounter, hzero])

/-! ### Loops that count -/

/-- A loop of two blocks, header and latch, that counts up to `N` with an 8 bit variable. It
leaves from the header when the variable is `N`, or from the latch before it becomes `N`. -/
def countingLoop (exitAtLatch : Bool) (N : ℕ) : ExitLoop 8 Bool Unit Unit where
  header := false
  latch := true
  exiting := exitAtLatch
  exitCmp := ⟨.ult, Fin.last 1, !exitAtLatch, false⟩
  origBound := BitVec.ofNat 8 N
  exec _ _ _ s := s
  next b _ _ _ := !b
  inside := !exitAtLatch
  carried _ _ _ := ()
  exiting_eq := by cases exitAtLatch <;> simp
  inside_eq_header := by cases exitAtLatch <;> simp
  next_eq_header := by simp

/-- A loop of two blocks that counts down to `0` and leaves from its header. -/
def countdown : LoopCode Bool (BitVec 8) Unit Unit where
  header := false
  latch := true
  exec _ _ s := s
  next b i _ := if b then .block false else if i = 0 then .exit () else .block true
  carried i _ := i - 1
  next_header b i _ h := by
    cases b with
    | true => rfl
    | false =>
      simp only [Bool.false_eq_true, if_false] at h
      split_ifs at h
      simp at h

/-- From `i` on, the header is visited `i + 1` times. -/
private theorem countdown_headerBound (i : BitVec 8) :
    countdown.HeaderBound (i.toNat + 1) (.block false i ()) := by
  intro n
  refine visits_le (fun c r => match c with
    | .block b i _ => if b then 0 < i.toNat ∧ i.toNat ≤ r else i.toNat + 1 ≤ r
    | .exited _ _ _ => True) (fun c r hrank _ => ?_) n (by simp)
  cases c with
  | exited e i s => exact ⟨r, trivial, by simp [LoopCode.isHeader]⟩
  | block b i s =>
    cases b with
    | true =>
      simp only [if_true] at hrank
      have hsub : (i - 1).toNat + 1 = i.toNat := by
        have := i.isLt
        rw [BitVec.toNat_sub]
        change (2 ^ 8 - 1 + i.toNat) % 2 ^ 8 + 1 = i.toNat
        omega
      refine ⟨r, ?_, by simp [LoopCode.isHeader, countdown]⟩
      change (i - 1).toNat + 1 ≤ r
      omega
    | false =>
      simp only [Bool.false_eq_true, if_false] at hrank
      by_cases hi : i = 0
      · exact ⟨0, by simp [LoopCode.step, countdown, hi],
          by simp only [LoopCode.isHeader, countdown]; simp; omega⟩
      · have hpos : 0 < i.toNat :=
          Nat.pos_of_ne_zero fun h => hi (BitVec.eq_of_toNat_eq (by simpa using h))
        refine ⟨r - 1, ?_, by simp only [LoopCode.isHeader, countdown]; simp; omega⟩
        simp only [LoopCode.step, countdown, hi, Bool.false_eq_true, if_false, Bool.true_eq_false,
          if_true]
        omega

/-- **Three ways to exceed the metadata.** A header-exiting loop of four iterations with chunk
size `2` executes the inner header three times in a chunk. A latch-exiting loop of `255`
iterations with chunk size `128` starts over when the outer variable wraps around. A loop that
leaves from its header after four iterations needs a third chunk of size `2`. -/
theorem strip_mined_exceeds_trip_counts :
    ((countingLoop false 4).BackedgeTaken 4 ∧
      (countingLoop false 4).tryStripMiningPlan (some 4) 2 = some ⟨4, 2⟩ ∧
      ¬((countingLoop false 4).exitNest 4 2).WithinTripCounts (.outerHeader 0 () ())
        (stripMineByExitRewrite ⟨4, 2⟩)) ∧
    ((countingLoop true 255).BackedgeTaken 254 ∧
      (countingLoop true 255).tryStripMiningPlan (some 254) 128 = some ⟨255, 128⟩ ∧
      ¬((countingLoop true 255).exitNest 255 128).WithinTripCounts (.outerHeader 0 () ())
        (stripMineByExitRewrite ⟨255, 128⟩)) ∧
    countdown.HeaderBound (4 + 1) (.block countdown.header 4 ()) ∧
      buildChunkingPlan (getConstantTripCount (some 4) false) none 16 2 = some ⟨4, 2⟩ ∧
      ¬(countdown.chunkNest 16 2).WithinTripCounts (.outerHeader 4 ())
        (stripMineByChunkCounter ⟨4, 2⟩) := by
  refine ⟨⟨by decide, by decide, fun h => ?_⟩, ⟨by decide +kernel, by decide, fun h => ?_⟩,
    countdown_headerBound 4, by decide, fun h => ?_⟩
  · have hle := h.1 0 rfl 6
    revert hle
    decide
  · have hle := h.2 2 (by decide) 600
    revert hle
    decide +kernel
  · have hle := h.2 2 (by decide) 20
    revert hle
    decide

/-- A latch-exiting loop of ten iterations, re-clamped from chunk size `4` to `3`, and the
countdown from four with chunk size `3` keep within their metadata. -/
theorem strip_mined_within_trip_counts_counting :
    ((countingLoop true 10).exitNest 10 3).WithinTripCounts (.outerHeader 0 () ())
      ⟨3, 3, some 4⟩ ∧
    (countdown.chunkNest 16 3).WithinTripCounts (.outerHeader 4 ()) ⟨3, 3, some 2⟩ := by
  have hreclamped : Reclamped 8 (stripMineByExitRewrite ⟨10, 4⟩) ⟨3, 3, some 4⟩ := by
    refine .step (some ⟨3, by decide, by decide⟩) .init fun t ht b hb => ?_
    obtain rfl : 3 = t := Option.some.inj ht
    obtain rfl : _ = b := Option.some.inj hb
    decide
  obtain ⟨hexit, hchunk⟩ := strip_mined_within_trip_counts (countingLoop true 10) countdown
  refine ⟨hexit (some 9) 4 ⟨10, 4⟩ ?_ (by decide) (by decide) _ hreclamped (.inl (by decide))
    (by decide) () (), hchunk (some 4) false none 16 3 ⟨4, 3⟩ 4 () ?_ (by simp) (by decide)
      (fun _ => .inr (by decide)) _ .init⟩
  · rintro n hn
    obtain rfl : 9 = n := Option.some.inj hn
    decide
  · rintro n hn
    obtain rfl : 4 = n := Option.some.inj hn
    exact countdown_headerBound 4

end Bao.Milp
