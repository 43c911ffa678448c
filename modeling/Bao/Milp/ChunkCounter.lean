import Bao.Machine.Logs
import Bao.Milp.StripMining

/-!
# Chunk counters keep the runs of a loop

`stripMineByChunkCounter` on the level of the PHIs. Before the rewrite every header PHI has one
value for the preheader and one for the latch (`PhiLoop`). The rewrite makes an outer PHI for
each of them, gives it the value of the preheader and, for `outer.latch`, the value of the latch;
the header PHI takes in the outer PHI from `outer.header` and the value of the latch from
`counter.check`. All of this is done by looking up and replacing entries of the PHIs.

The nest runs the original blocks with the original values of the header PHIs, and leaves with
the original values: it is a stuttering machine over the loop (`nest_stutters`), for every constant
in the counter check. The constant matters for the length of a chunk only: the counter reaches
it after that many checks. So changing the constant later, as `updateChunkLoopBound` does, is
harmless.
-/

namespace Bao.Milp

open Machine

/-! ### PHIs -/

/-- The blocks of the nest, as far as PHIs name them. -/
inductive NestBlock (β : Type*)
  | preheader
  | orig (b : β)
  | outerHeader
  | counterCheck
  | outerLatch
  deriving DecidableEq

/-- A PHI: its incoming blocks with their values. -/
abbrev Incoming (β ν : Type*) := List (NestBlock β × ν)

/-- `setIncomingBlock` and `setIncomingValue` at the index of a block, if it has one. -/
def replaceIncoming {β ν : Type*} [DecidableEq β] (old new : NestBlock β) (value : ν → ν) :
    Incoming β ν → Incoming β ν
  | [] => []
  | (b, v) :: l =>
    if b = old then (new, value v) :: l else (b, v) :: replaceIncoming old new value l

/-- A loop with a preheader and a single latch, with the PHIs of its header: blocks `β`, header
PHIs `P`, the values `ν` that PHIs take in, and what the registers hold, `V`. -/
structure PhiLoop (β P ν V ρ ε : Type*) where
  header : β
  latch : β
  exec : β → (P → V) → ρ → ρ
  next : β → (P → V) → ρ → Target β ε
  incoming : P → Incoming β ν
  eval : ν → (P → V) → ρ → V
  next_header : ∀ b φ s, next b φ s = .block header → b = latch
  incoming_eq : ∀ p, ∃ init carried,
    incoming p = [(.preheader, init), (.orig latch, carried)] ∨
      incoming p = [(.orig latch, carried), (.preheader, init)]

/-- The values the PHIs of the nest take in. -/
inductive NestValue (P ν : Type*)
  | value (v : ν)
  | outerPhi (p : P)

/-- The PHIs of the nest, besides the counter: those of the header and those of
`outer.header`. -/
structure NestPhis (β P ν : Type*) where
  header : P → Incoming β (NestValue P ν)
  outer : P → Incoming β (NestValue P ν)

/-- A configuration of the nest: the counter, the outer PHIs, the header PHIs and the rest. -/
inductive NestConfig (w : ℕ) (β P V ρ ε : Type*)
  | top (b : NestBlock β) (counter : BitVec w) (outer φ : P → V) (s : ρ)
  | exited (e : ε) (φ : P → V) (s : ρ)

namespace PhiLoop

variable {β P ν V ρ ε : Type*} [DecidableEq β] (L : PhiLoop β P ν V ρ ε) {w : ℕ}

/-! ### The loop -/

/-- The header PHIs when control comes from a block. -/
def enter (pred : NestBlock β) (φ : P → V) (s : ρ) : P → V := fun p =>
  ((L.incoming p).lookup pred).elim (φ p) fun v => L.eval v φ s

/-- The loop before the rewrite. -/
def code : LoopCode β (P → V) ρ ε where
  header := L.header
  latch := L.latch
  exec := L.exec
  next := L.next
  carried := L.enter (.orig L.latch)
  next_header := L.next_header

/-! ### The rewrite -/

/-- The PHIs that `stripMineByChunkCounter` leaves. -/
def stripMineByChunkCounter : NestPhis β P ν :=
  let header := fun p => replaceIncoming (.orig L.latch) .counterCheck id
    (replaceIncoming .preheader .outerHeader (fun _ => .outerPhi p)
      ((L.incoming p).map fun e => (e.1, .value e.2)))
  { header := header
    outer := fun p =>
      (((L.incoming p).lookup .preheader).toList.map fun v => (.preheader, .value v)) ++
        ((header p).lookup .counterCheck).toList.map fun v => (.outerLatch, v) }

/-- The values of PHIs of the nest when control comes from a block. -/
def enterNest (incoming : P → Incoming β (NestValue P ν)) (pred : NestBlock β)
    (outer φ : P → V) (s : ρ) : P → V := fun p =>
  ((incoming p).lookup pred).elim (φ p) fun v =>
    match v with
    | .value v => L.eval v φ s
    | .outerPhi q => outer q

/-- Execution of one block of the nest. The new blocks have no instructions but the counter. -/
def nestStep (K : BitVec w) : NestConfig w β P V ρ ε → NestConfig w β P V ρ ε
  | .top .preheader counter outer φ s =>
    .top .outerHeader counter
      (L.enterNest L.stripMineByChunkCounter.outer .preheader outer φ s) φ s
  | .top .outerHeader _ outer φ s =>
    .top (.orig L.header) 0 outer
      (L.enterNest L.stripMineByChunkCounter.header .outerHeader outer φ s) s
  | .top (.orig b) counter outer φ s =>
    match L.next b φ (L.exec b φ s) with
    | .block c =>
      if b = L.latch ∧ c = L.header then .top .counterCheck counter outer φ (L.exec b φ s)
      else .top (.orig c) counter outer φ (L.exec b φ s)
    | .exit e => .exited e φ (L.exec b φ s)
  | .top .counterCheck counter outer φ s =>
    if counter + 1 = K then .top .outerLatch counter outer φ s
    else .top (.orig L.header) (counter + 1) outer
      (L.enterNest L.stripMineByChunkCounter.header .counterCheck outer φ s) s
  | .top .outerLatch counter outer φ s =>
    .top .outerHeader counter
      (L.enterNest L.stripMineByChunkCounter.outer .outerLatch outer φ s) φ s
  | .exited e φ s => .exited e φ s

/-- `updateChunkLoopBound` on the constant in the counter check. -/
def updateChunkLoopBound (w codeK currentK newK : ℕ) : Option ℕ :=
  if newK < 2 ^ w ∧ codeK = currentK then some newK else none

/-- The constant after a sequence of re-clamps, each with the chunk size it expects and the new
one. A re-clamp that fails changes nothing. -/
def reclamped (w : ℕ) : ℕ → List (ℕ × ℕ) → ℕ
  | codeK, [] => codeK
  | codeK, r :: rs => reclamped w ((updateChunkLoopBound w codeK r.1 r.2).getD codeK) rs

variable {L}

/-! ### The moved values -/

private theorem lookup_cons_eq {μ : Type*} (k a : NestBlock β) (v : μ) (l : Incoming β μ) :
    List.lookup k ((a, v) :: l) = if k = a then some v else List.lookup k l := by
  rw [List.lookup_cons]
  by_cases h : k = a
  · simp [h]
  · simp [beq_eq_false_iff_ne.mpr h, h]

/-- The outer PHIs are entered with what the header PHIs were entered with. -/
theorem enterNest_outer (outer φ : P → V) (s : ρ) :
    L.enterNest L.stripMineByChunkCounter.outer .preheader outer φ s = L.enter .preheader φ s ∧
      L.enterNest L.stripMineByChunkCounter.outer .outerLatch outer φ s =
        L.enter (.orig L.latch) φ s := by
  constructor
  · funext p
    obtain ⟨init, carried, h | h⟩ := L.incoming_eq p <;>
      simp [enterNest, enter, stripMineByChunkCounter, replaceIncoming, h, lookup_cons_eq]
  · funext p
    obtain ⟨init, carried, h | h⟩ := L.incoming_eq p <;>
      simp [enterNest, enter, stripMineByChunkCounter, replaceIncoming, h, lookup_cons_eq]

/-- The header PHIs take in the outer PHIs, and the values of the latch after a check. -/
theorem enterNest_header (outer φ : P → V) (s : ρ) :
    L.enterNest L.stripMineByChunkCounter.header .outerHeader outer φ s = outer ∧
      L.enterNest L.stripMineByChunkCounter.header .counterCheck outer φ s =
        L.enter (.orig L.latch) φ s := by
  constructor
  · funext p
    obtain ⟨init, carried, h | h⟩ := L.incoming_eq p <;>
      simp [enterNest, stripMineByChunkCounter, replaceIncoming, h, lookup_cons_eq]
  · funext p
    obtain ⟨init, carried, h | h⟩ := L.incoming_eq p <;>
      simp [enterNest, enter, stripMineByChunkCounter, replaceIncoming, h, lookup_cons_eq]

/-! ### Runs of the nest -/

/-- The configuration of the loop a configuration of the nest stands for: the new blocks stand
for the visit of the header that comes next. -/
def toLoop (L : PhiLoop β P ν V ρ ε) : NestConfig w β P V ρ ε → LoopConfig β (P → V) ρ ε
  | .top .preheader _ _ φ s => .block L.header (L.enter .preheader φ s) s
  | .top .outerHeader _ outer _ s => .block L.header outer s
  | .top (.orig b) _ _ φ s => .block b φ s
  | .top .counterCheck _ _ φ s => .block L.header (L.enter (.orig L.latch) φ s) s
  | .top .outerLatch _ _ φ s => .block L.header (L.enter (.orig L.latch) φ s) s
  | .exited e φ s => .exited e φ s

/-- The original blocks and the exits. -/
def isOrig : NestConfig w β P V ρ ε → Bool
  | .top (.orig _) _ _ _ _ => true
  | .exited _ _ _ => true
  | _ => false

/-- At `outer.header`. -/
def isOuterHeader : NestConfig w β P V ρ ε → Bool
  | .top .outerHeader _ _ _ _ => true
  | _ => false

/-- At `counter.check`, which the latch reaches instead of the header. -/
def isCounterCheck : NestConfig w β P V ρ ε → Bool
  | .top .counterCheck _ _ _ _ => true
  | _ => false

/-- The number of new blocks up to the next original one. -/
private def silentRank : NestConfig w β P V ρ ε → ℕ
  | .top .counterCheck _ _ _ _ => 3
  | .top .preheader _ _ _ _ => 2
  | .top .outerLatch _ _ _ _ => 2
  | .top .outerHeader _ _ _ _ => 1
  | _ => 0

/-- **What an original block of the nest can do**: go on, take the back edge to the counter check,
or leave. -/
theorem nestStep_orig (K counter : BitVec w) (b : β) (outer φ : P → V) (s : ρ) :
    (∃ c, L.code.step (.block b φ s) = .block c φ (L.exec b φ s) ∧
        L.nestStep K (.top (.orig b) counter outer φ s) =
          .top (.orig c) counter outer φ (L.exec b φ s)) ∨
      (L.code.step (.block b φ s) =
          .block L.header (L.enter (.orig L.latch) φ (L.exec b φ s)) (L.exec b φ s) ∧
        L.nestStep K (.top (.orig b) counter outer φ s) =
          .top .counterCheck counter outer φ (L.exec b φ s)) ∨
      ∃ e, L.code.step (.block b φ s) = .exited e φ (L.exec b φ s) ∧
        L.nestStep K (.top (.orig b) counter outer φ s) = .exited e φ (L.exec b φ s) := by
  rw [nestStep]
  rcases L.code.step_cases b φ s with ⟨c, hnext, hne, hstep⟩ | ⟨hnext, hstep⟩ | ⟨e, hnext, hstep⟩
  · change L.next b φ (L.exec b φ s) = .block c at hnext
    refine .inl ⟨c, hstep, ?_⟩
    simp only [hnext]
    exact if_neg fun h => hne h.2
  · -- only the latch goes to the header
    have hlatch : b = L.latch := L.next_header b φ _ hnext
    change L.next b φ (L.exec b φ s) = .block L.header at hnext
    refine .inr (.inl ⟨hstep, ?_⟩)
    simp only [hnext]
    exact if_pos ⟨hlatch, trivial⟩
  · change L.next b φ (L.exec b φ s) = .exit e at hnext
    exact .inr (.inr ⟨e, hstep, by simp only [hnext]⟩)

theorem nestStep_check_done {K counter : BitVec w} (h : counter + 1 = K) (outer φ : P → V)
    (s : ρ) : L.nestStep K (.top .counterCheck counter outer φ s) =
      .top .outerLatch counter outer φ s :=
  if_pos h

theorem nestStep_check_go {K counter : BitVec w} (h : counter + 1 ≠ K) (outer φ : P → V)
    (s : ρ) : L.nestStep K (.top .counterCheck counter outer φ s) =
      .top (.orig L.header) (counter + 1) outer (L.enter (.orig L.latch) φ s) s := by
  rw [← (enterNest_header outer φ s).2]
  exact if_neg h

/-- **The nest follows the loop**, whatever the constant in the counter check is. -/
theorem nest_stutters (L : PhiLoop β P ν V ρ ε) (K : BitVec w) :
    Stutters L.code.step (L.nestStep K) L.toLoop isOrig silentRank := by
  constructor
  · rintro (⟨b, counter, outer, φ, s⟩ | ⟨e, φ, s⟩) hvisible
    · cases b with
      | orig b =>
        rcases L.nestStep_orig K counter b outer φ s with ⟨c, hstep, hnest⟩ | ⟨hstep, hnest⟩ |
          ⟨e, hstep, hnest⟩ <;>
          rw [hnest, toLoop, toLoop, hstep]
      | preheader | outerHeader | counterCheck | outerLatch => simp [isOrig] at hvisible
    · rfl
  · rintro (⟨b, counter, outer, φ, s⟩ | ⟨e, φ, s⟩) hsilent
    · cases b with
      | orig b => simp [isOrig] at hsilent
      | preheader =>
        rw [nestStep, (enterNest_outer outer φ s).1]
        exact ⟨rfl, Nat.lt_succ_self 1⟩
      | outerHeader =>
        rw [nestStep, (enterNest_header outer φ s).1]
        exact ⟨rfl, Nat.zero_lt_one⟩
      | counterCheck =>
        by_cases hdone : counter + 1 = K
        · rw [nestStep_check_done hdone]
          exact ⟨rfl, Nat.lt_succ_self 2⟩
        · rw [nestStep_check_go hdone]
          exact ⟨rfl, Nat.zero_lt_succ 2⟩
      | outerLatch =>
        rw [nestStep, (enterNest_outer outer φ s).2]
        exact ⟨rfl, Nat.lt_succ_self 1⟩
    · simp [isOrig] at hsilent

/-! ### The length of a chunk -/

/-- At most `r` checks remain before the nest is back at `outer.header`. -/
private def ChecksLeft (K : ℕ) : NestConfig w β P V ρ ε → ℕ → Prop
  | .top (.orig _) counter _ _ _, r => counter.toNat < K ∧ r = K - counter.toNat
  | .top .counterCheck counter _ _ _, r => counter.toNat < K ∧ r = K - counter.toNat
  | .top .preheader _ _ _ _, _ => False
  | _, r => r = 0

/-- A check counts, and the last one leaves the inner loop. -/
private theorem checksLeft_step {K : ℕ} (hK : K < 2 ^ w) (c : NestConfig w β P V ρ ε) (r : ℕ)
    (h : ChecksLeft K c r) (hstop : isOuterHeader c = false) :
    ∃ r', ChecksLeft K (L.nestStep (BitVec.ofNat w K) c) r' ∧
      (if isCounterCheck c then 1 else 0) + r' ≤ r := by
  rcases c with ⟨b, counter, outer, φ, s⟩ | ⟨e, φ, s⟩
  · cases b with
    | preheader => exact absurd h id
    | outerHeader => simp [isOuterHeader] at hstop
    | orig b =>
      obtain ⟨hlt, rfl⟩ := h
      rcases L.nestStep_orig (BitVec.ofNat w K) counter b outer φ s with ⟨c, -, hnest⟩ |
        ⟨-, hnest⟩ | ⟨e, -, hnest⟩ <;> rw [hnest]
      · exact ⟨K - counter.toNat, ⟨hlt, rfl⟩, by simp [isCounterCheck]⟩
      · exact ⟨K - counter.toNat, ⟨hlt, rfl⟩, by simp [isCounterCheck]⟩
      · exact ⟨0, rfl, by simp [isCounterCheck]⟩
    | counterCheck =>
      obtain ⟨hlt, rfl⟩ := h
      by_cases hdone : counter + 1 = BitVec.ofNat w K
      · rw [nestStep_check_done hdone]
        exact ⟨0, rfl, by simp only [isCounterCheck, if_true]; omega⟩
      · rw [nestStep_check_go hdone]
        have hsucc : (counter + 1).toNat = counter.toNat + 1 :=
          toNat_add_ofNat (show counter.toNat + 1 < 2 ^ w by omega)
        -- the counter cannot step over `K`, because it does not wrap around before
        have hne : counter.toNat + 1 ≠ K := by
          rintro rfl
          exact hdone (BitVec.eq_of_toNat_eq (by rw [hsucc, BitVec.toNat_ofNat,
            Nat.mod_eq_of_lt hK]))
        refine ⟨K - (counter + 1).toNat, ⟨by omega, rfl⟩, ?_⟩
        simp only [isCounterCheck, if_true]
        omega
    | outerLatch =>
      obtain rfl : r = 0 := h
      exact ⟨0, rfl, by simp [isCounterCheck]⟩
  · obtain rfl : r = 0 := h
    exact ⟨0, rfl, by simp [isCounterCheck]⟩

/-- Re-clamps to sizes that fit keep a size that fits. -/
theorem reclamped_fits {K : ℕ} (hK : 1 ≤ K ∧ K < 2 ^ w) (reclamps : List (ℕ × ℕ))
    (hre : ∀ r ∈ reclamps, 1 ≤ r.2 ∧ r.2 < 2 ^ w) :
    1 ≤ reclamped w K reclamps ∧ reclamped w K reclamps < 2 ^ w := by
  induction reclamps generalizing K with
  | nil => exact hK
  | cons r rs ih =>
    refine ih ?_ fun r' hr' => hre r' (List.mem_cons_of_mem r hr')
    rw [updateChunkLoopBound]
    split_ifs
    · exact hre r List.mem_cons_self
    · exact hK

/-- A loop of one block that counts to five in its only header PHI. -/
def counting : PhiLoop Unit Unit Bool ℕ Unit Unit where
  header := ()
  latch := ()
  exec _ _ s := s
  next _ φ _ := if φ () < 5 then .block () else .exit ()
  incoming _ := [(.preheader, false), (.orig (), true)]
  eval v φ _ := if v then φ () + 1 else 0
  next_header _ _ _ _ := rfl
  incoming_eq _ := ⟨false, true, .inl rfl⟩

end PhiLoop

end Bao.Milp
