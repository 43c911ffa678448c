import Bao.Machine.Effects
import Bao.Milp.StripMiningIterations

/-!
# The side effects of a loop with rewritten exit

`stripMineByExitRewrite` is meant to keep what a loop does. Each block of the loop runs as before,
with two exceptions at the end of a chunk, neither of which the pass looks at.

* A loop that exits from its header takes the exit with the header executed. The next chunk starts
  with the header, so the header is executed twice for that value of the induction variable, and a
  store or a call in it is done twice.
* The exit comparison itself gets the limit of the chunk for its bound, so its result is another one
  in the last iteration of a chunk. The exit branch is made up for by `outer.latch`, other uses of
  the result are not.

Where neither is seen (`Harmless`) the nest does what the loop does: the same side effects in the
same order, and the same values of the induction variable, the header PHIs and all other registers
and memory at the exit. Nothing is assumed of the other instructions, and the loops inside the body
may run forever.
-/

namespace Bao.Milp

open Machine

/-- The result of the exit comparison. -/
def ExitCmp.value {w : ℕ} (c : ExitCmp) (iv bound : BitVec w) : Bool :=
  c.stays iv bound != c.exitOnTrue

theorem ExitCmp.value_of_stays {w : ℕ} {c : ExitCmp} {iv bound : BitVec w}
    (h : c.stays iv bound = true) : c.value iv bound = !c.exitOnTrue := by
  rw [value, h, Bool.true_bne]

theorem ExitCmp.value_of_leaves {w : ℕ} {c : ExitCmp} {iv bound : BitVec w}
    (h : c.stays iv bound = false) : c.value iv bound = c.exitOnTrue := by
  rw [value, h, Bool.false_bne]

/-- A loop as in `ExitLoop`, with the side effects `ε` of its blocks. All instructions may use the
result of the exit comparison, which is not part of the other registers `ρ`. -/
structure EffectLoop (w : ℕ) (β Ψ ρ ε : Type*) where
  header : β
  latch : β
  exiting : β
  exitCmp : ExitCmp
  origBound : BitVec w
  exec : β → Bool → BitVec w → Ψ → ρ → ρ
  /-- The stores, calls and so on that a block performs. -/
  effects : β → Bool → BitVec w → Ψ → ρ → List ε
  /-- The successor of a block other than the exiting one. -/
  next : β → Bool → BitVec w → Ψ → ρ → β
  /-- The successor of the exiting block inside the loop. -/
  inside : β
  carried : Bool → BitVec w → Ψ → ρ → Ψ
  exiting_eq : exiting = header ∨ exiting = latch
  inside_eq_header : inside = header ↔ exiting = latch
  next_eq_header : ∀ b v i ψ s, next b v i ψ s = header → b = latch

namespace EffectLoop

variable {w : ℕ} {β Ψ ρ ε : Type*} [DecidableEq β] (L : EffectLoop w β Ψ ρ ε) {N K : ℕ}

/-- The loop whose instructions see the comparison to a given bound. -/
def reading (bound : BitVec w) : ExitLoop w β Ψ ρ where
  header := L.header
  latch := L.latch
  exiting := L.exiting
  exitCmp := L.exitCmp
  origBound := L.origBound
  exec b i ψ s := L.exec b (L.exitCmp.value i bound) i ψ s
  next b i ψ s := L.next b (L.exitCmp.value i bound) i ψ s
  inside := L.inside
  carried i ψ s := L.carried (L.exitCmp.value i bound) i ψ s
  exiting_eq := L.exiting_eq
  inside_eq_header := L.inside_eq_header
  next_eq_header b i ψ s := L.next_eq_header b _ i ψ s

/-- The loop before the pass. -/
def original : ExitLoop w β Ψ ρ := L.reading L.origBound

/-- The loop as a program; it leaves with the induction variable, the other header PHIs, and the
registers and the memory. -/
def program :
    EffectProgram (LoopConfig β (BitVec w × Ψ) ρ Unit) ε (BitVec w × Ψ × ρ) where
  step := (L.original.code L.origBound).step
  effects
    | .block b φ s => L.effects b (L.exitCmp.value φ.1 L.origBound) φ.1 φ.2 s
    | .exited _ _ _ => []
  result
    | .block _ _ _ => none
    | .exited _ φ s => some (φ.1, φ.2, s)
  step_of_result {c v} h := by
    cases c with
    | block b φ s => cases h
    | exited e φ s => rfl
  effects_of_result {c v} h := by
    cases c with
    | block b φ s => cases h
    | exited e φ s => rfl

/-- The bound of the comparison in a chunk. -/
def chunkBound (N K : ℕ) (outerIV : BitVec w) : BitVec w := L.original.innerExitBound N K outerIV

/-- Execution of one block of the nest; the comparison has the bound of the chunk. -/
def nestStep (N K : ℕ) : ExitConfig w β Ψ ρ → ExitConfig w β Ψ ρ
  | .outerHeader o ψ s => (L.reading (L.chunkBound N K o)).exitStep N K (.outerHeader o ψ s)
  | .block o b i ψ s => (L.reading (L.chunkBound N K o)).exitStep N K (.block o b i ψ s)
  | .outerLatch o i ψ s => (L.reading (L.chunkBound N K o)).exitStep N K (.outerLatch o i ψ s)
  | .exited i ψ s => .exited i ψ s

/-- The nest `stripMineByExitRewrite` produces, as a program. -/
def nest (N K : ℕ) : EffectProgram (ExitConfig w β Ψ ρ) ε (BitVec w × Ψ × ρ) where
  step := L.nestStep N K
  effects
    | .block o b i ψ s => L.effects b (L.exitCmp.value i (L.chunkBound N K o)) i ψ s
    | _ => []
  result
    | .exited i ψ s => some (i, ψ, s)
    | _ => none
  step_of_result {c v} h := by
    cases c with
    | outerHeader | block | outerLatch => cases h
    | exited i ψ s => rfl
  effects_of_result {c v} h := by
    cases c with
    | outerHeader | block | outerLatch => cases h
    | exited i ψ s => rfl

/-! ### What goes unnoticed -/

/-- Executing the header once more, as a chunk that leaves and the next one do, is the same as
executing it once. -/
def RepeatsHeader (i : BitVec w) (ψ : Ψ) (s : ρ) : Prop :=
  let leave := L.exitCmp.exitOnTrue
  let stay := !L.exitCmp.exitOnTrue
  L.exec L.header stay i ψ (L.exec L.header leave i ψ s) = L.exec L.header stay i ψ s ∧
    L.effects L.header leave i ψ s ++
        L.effects L.header stay i ψ (L.exec L.header leave i ψ s) =
      L.effects L.header stay i ψ s

/-- A block does the same for two results of the exit comparison, its exit branch apart. -/
structure SameBlock (b : β) (i : BitVec w) (ψ : Ψ) (s : ρ) (v v' : Bool) : Prop where
  exec : L.exec b v i ψ s = L.exec b v' i ψ s
  effects : L.effects b v i ψ s = L.effects b v' i ψ s
  next : b ≠ L.exiting → L.next b v i ψ (L.exec b v i ψ s) = L.next b v' i ψ (L.exec b v' i ψ s)
  carried : b = L.latch →
    L.carried v i ψ (L.exec b v i ψ s) = L.carried v' i ψ (L.exec b v' i ψ s)

/-- **The end of a chunk goes unnoticed.** In a loop that exits from its header, executing the
header twice before the first iteration of a further chunk is executing it once. In a loop that
exits from its latch, nothing depends on the result of the comparison in the last iteration of a
chunk that is not the last one. -/
def Harmless (N K : ℕ) : LoopConfig β (BitVec w × Ψ) ρ Unit → Prop
  | .block b (i, ψ) s =>
    if L.original.exitAtLatch then
      K ∣ i.toNat + 1 → i.toNat + 1 < N → L.SameBlock b i ψ s true false
    else b = L.header → 0 < i.toNat → K ∣ i.toNat → i.toNat < N → L.RepeatsHeader i ψ s
  | .exited _ _ _ => True

/-! ### Steps -/

variable {L}

omit [DecidableEq β] in
private theorem SameBlock.refl (b : β) (i : BitVec w) (ψ : Ψ) (s : ρ) (v : Bool) :
    L.SameBlock b i ψ s v v :=
  ⟨rfl, rfl, fun _ => rfl, fun _ => rfl⟩

omit [DecidableEq β] in
/-- Two results are the same, or one of each. -/
private theorem SameBlock.of_true_false {b : β} {i : BitVec w} {ψ : Ψ} {s : ρ}
    (h : L.SameBlock b i ψ s true false) (v v' : Bool) : L.SameBlock b i ψ s v v' := by
  cases v <;> cases v'
  · exact .refl b i ψ s false
  · exact ⟨h.exec.symm, h.effects.symm, fun hb => (h.next hb).symm, fun hb => (h.carried hb).symm⟩
  · exact h
  · exact .refl b i ψ s true

/-- What a block of the loop does. -/
private theorem program_step_block (b : β) (i : BitVec w) (ψ : Ψ) (s : ρ) :
    L.program.step (.block b (i, ψ) s) =
      let v := L.exitCmp.value i L.origBound
      let s' := L.exec b v i ψ s
      let c := if b = L.exiting then L.inside else L.next b v i ψ s'
      if b = L.exiting ∧ L.exitCmp.stays i L.origBound = false then .exited () (i, ψ) s'
      else if c = L.header then .block L.header (i + 1, L.carried v i ψ s') s'
      else .block c (i, ψ) s' :=
  L.original.code_step_block L.origBound b i ψ s

/-- What a block of the nest does. -/
private theorem nest_step_block (o : BitVec w) (b : β) (i : BitVec w) (ψ : Ψ) (s : ρ) :
    (L.nest N K).step (.block o b i ψ s) =
      let v := L.exitCmp.value i (L.chunkBound N K o)
      let s' := L.exec b v i ψ s
      let c := if b = L.exiting then L.inside else L.next b v i ψ s'
      if b = L.exiting ∧ L.exitCmp.stays i (L.chunkBound N K o) = false then .outerLatch o i ψ s'
      else if c = L.header then .block o L.header (i + 1) (L.carried v i ψ s') s'
      else .block o c i ψ s' :=
  (L.reading (L.chunkBound N K o)).exitStep_block N K o b i ψ s

/-- Only the latch goes back to the header. -/
private theorem eq_latch_of_next (L : EffectLoop w β Ψ ρ ε) {b : β} {v : Bool} {i : BitVec w}
    {ψ : Ψ}
    {s : ρ} (h : (if b = L.exiting then L.inside else L.next b v i ψ s) = L.header) :
    b = L.latch := by
  split_ifs at h with hb
  · exact hb.trans (L.inside_eq_header.mp h)
  · exact L.next_eq_header b v i ψ s h

/-- The end of a chunk. -/
def limitOf (N K j : ℕ) : ℕ := min (j * K + K) N

/-- Where the nest is when the loop is at a block: in chunk `j`, at the same block with the same
values. -/
inductive Matches (L : EffectLoop w β Ψ ρ ε) (N K : ℕ) :
    LoopConfig β (BitVec w × Ψ) ρ Unit → ExitConfig w β Ψ ρ → Prop
  | block {j x : ℕ} {b : β} {ψ : Ψ} {s : ρ} (hstart : j * K < N) (hge : j * K ≤ x)
      (hle : x ≤ L.original.lastOf (limitOf N K j)) (hbody : b ≠ L.header → x < limitOf N K j) :
      Matches L N K (.block b (BitVec.ofNat w x, ψ) s)
        (.block (BitVec.ofNat w (j * K)) b (BitVec.ofNat w x) ψ s)
  | exited {φ : BitVec w × Ψ} {s : ρ} : Matches L N K (.exited () φ s) (.exited φ.1 φ.2 s)

/-- The nest follows a step of the loop. -/
def Follows (L : EffectLoop w β Ψ ρ ε) (N K : ℕ) (c : LoopConfig β (BitVec w × Ψ) ρ Unit)
    (d : ExitConfig w β Ψ ρ) : Prop :=
  ∃ n, 0 < n ∧ L.program.effects c = (L.nest N K).performed d n ∧
    L.Matches N K (L.program.step c) ((L.nest N K).step^[n] d)

/-- A block of the loop that is a block of the nest: the loop is not left, and the next iteration,
if it is reached, belongs to the same chunk. -/
private theorem follows_block {j x : ℕ} {b : β} {ψ : Ψ} {s : ρ} (hstart : j * K < N)
    (hge : j * K ≤ x) (hlt : x < limitOf N K j)
    (hback : b = L.latch → x < L.original.lastOf (limitOf N K j))
    (hle : x ≤ L.original.lastOf (limitOf N K j))
    (hsame : L.SameBlock b (BitVec.ofNat w x) ψ s
      (L.exitCmp.value (BitVec.ofNat w x) L.origBound)
      (L.exitCmp.value (BitVec.ofNat w x) (L.chunkBound N K (BitVec.ofNat w (j * K)))))
    (hstay : b = L.exiting → L.exitCmp.stays (BitVec.ofNat w x) L.origBound = true ∧
      L.exitCmp.stays (BitVec.ofNat w x) (L.chunkBound N K (BitVec.ofNat w (j * K))) = true) :
    L.Follows N K (.block b (BitVec.ofNat w x, ψ) s)
      (.block (BitVec.ofNat w (j * K)) b (BitVec.ofNat w x) ψ s) := by
  refine ⟨1, Nat.one_pos, ?_, ?_⟩
  · simpa [EffectProgram.performed, program, nest] using hsame.effects
  have hloop : ¬(b = L.exiting ∧ L.exitCmp.stays (BitVec.ofNat w x) L.origBound = false) :=
    fun h => by simp [(hstay h.1).1] at h
  have hnest : ¬(b = L.exiting ∧ L.exitCmp.stays (BitVec.ofNat w x)
      (L.chunkBound N K (BitVec.ofNat w (j * K))) = false) := fun h => by
    simp [(hstay h.1).2] at h
  rw [Function.iterate_one, program_step_block, nest_step_block]
  simp only [if_neg hloop, if_neg hnest]
  generalize L.exitCmp.value (BitVec.ofNat w x) L.origBound = v at hsame ⊢
  generalize L.exitCmp.value (BitVec.ofNat w x) (L.chunkBound N K (BitVec.ofNat w (j * K))) = v'
    at hsame ⊢
  have hnext : (if b = L.exiting then L.inside
        else L.next b v' (BitVec.ofNat w x) ψ (L.exec b v' (BitVec.ofNat w x) ψ s)) =
      if b = L.exiting then L.inside
        else L.next b v (BitVec.ofNat w x) ψ (L.exec b v (BitVec.ofNat w x) ψ s) := by
    split_ifs with hb
    · rfl
    · exact (hsame.next hb).symm
  rw [hnext]
  by_cases hheader : (if b = L.exiting then L.inside
      else L.next b v (BitVec.ofNat w x) ψ (L.exec b v (BitVec.ofNat w x) ψ s)) = L.header
  · have hlatch : b = L.latch := L.eq_latch_of_next hheader
    have hsucc : BitVec.ofNat w x + 1 = BitVec.ofNat w (x + 1) := (BitVec.ofNat_add x 1).symm
    rw [if_pos hheader, if_pos hheader, ← hsame.carried hlatch, ← hsame.exec, hsucc]
    exact .block hstart (by omega) (hback hlatch) (fun h => absurd rfl h)
  · rw [if_neg hheader, if_neg hheader, ← hsame.exec]
    exact .block hstart hge hle fun _ => hlt

/-- `outer.header` enters the inner loop at the value of its induction variable. -/
private theorem nest_step_outerHeader (o : BitVec w) (ψ : Ψ) (s : ρ) :
    (L.nest N K).step (.outerHeader o ψ s) = .block o L.header o ψ s := rfl

/-- What `outer.latch` does: go on with the next chunk, or leave the nest. -/
private theorem nest_step_outerLatch (hNw : N < 2 ^ w) {j : ℕ} (hwrap : j * K + K < 2 ^ w)
    (i : BitVec w) (ψ : Ψ) (s : ρ) :
    (L.nest N K).step (.outerLatch (BitVec.ofNat w (j * K)) i ψ s) =
      if j * K + K < N then
        .outerHeader (BitVec.ofNat w ((j + 1) * K))
          (if L.exiting = L.header ∧ L.latch ≠ L.header then ψ
            else L.carried (L.exitCmp.value i (L.chunkBound N K (BitVec.ofNat w (j * K)))) i ψ s) s
      else .exited i ψ s := by
  have hult := ExitLoop.add_ult_iff (K := K) hNw (j * K)
  rw [Nat.mod_eq_of_lt hwrap] at hult
  by_cases hlt : j * K + K < N
  · rw [if_pos hlt, Nat.succ_mul, BitVec.ofNat_add]
    exact if_pos (hult.mpr hlt)
  · rw [if_neg hlt]
    exact if_neg (mt hult.mp hlt)

/-- The loop is left, and the nest with it. -/
private theorem follows_leave (hNw : N < 2 ^ w) {j x : ℕ} {ψ : Ψ} {s : ρ}
    (hwrap : j * K + K < 2 ^ w) (hlast : N ≤ j * K + K)
    (hloop : L.exitCmp.stays (BitVec.ofNat w x) L.origBound = false)
    (hnest : L.exitCmp.stays (BitVec.ofNat w x) (L.chunkBound N K (BitVec.ofNat w (j * K)))
      = false) :
    L.Follows N K (.block L.exiting (BitVec.ofNat w x, ψ) s)
      (.block (BitVec.ofNat w (j * K)) L.exiting (BitVec.ofNat w x) ψ s) := by
  have hvalue : L.exitCmp.value (BitVec.ofNat w x) (L.chunkBound N K (BitVec.ofNat w (j * K))) =
      L.exitCmp.value (BitVec.ofNat w x) L.origBound := by
    rw [ExitCmp.value, ExitCmp.value, hloop, hnest]
  have hstep := L.nest_step_block (N := N) (K := K) (BitVec.ofNat w (j * K)) L.exiting
    (BitVec.ofNat w x) ψ s
  simp only [hnest, and_self, if_true] at hstep
  refine ⟨2, Nat.two_pos, ?_, ?_⟩
  · simp only [EffectProgram.performed, hstep]
    simp [program, nest, hvalue]
  · rw [program_step_block, Function.iterate_succ_apply, Function.iterate_one, hstep,
      nest_step_outerLatch hNw hwrap, if_neg (not_lt.mpr hlast), hvalue]
    simp only [hloop, and_self, if_true]
    exact .exited

/-- **A further chunk of a loop that exits from its header.** The nest leaves the chunk at the
header and executes it again; the loop executes it once and goes on. -/
private theorem follows_header (hNw : N < 2 ^ w) {j : ℕ} {ψ : Ψ} {s : ρ} (hlt : j * K + K < N)
    (hne : L.exiting ≠ L.latch)
    (hrepeat : L.RepeatsHeader (BitVec.ofNat w ((j + 1) * K)) ψ s)
    (hnext : (j + 1) * K < limitOf N K (j + 1))
    (hlast : (j + 1) * K ≤ L.original.lastOf (limitOf N K (j + 1)))
    (hloop : L.exitCmp.stays (BitVec.ofNat w ((j + 1) * K)) L.origBound = true)
    (hleave : L.exitCmp.stays (BitVec.ofNat w ((j + 1) * K))
      (L.chunkBound N K (BitVec.ofNat w (j * K))) = false)
    (hstay : L.exitCmp.stays (BitVec.ofNat w ((j + 1) * K))
      (L.chunkBound N K (BitVec.ofNat w ((j + 1) * K))) = true) :
    L.Follows N K (.block L.header (BitVec.ofNat w ((j + 1) * K), ψ) s)
      (.block (BitVec.ofNat w (j * K)) L.header (BitVec.ofNat w ((j + 1) * K)) ψ s) := by
  have hexiting : L.exiting = L.header := L.exiting_eq.resolve_right hne
  have hinside : L.inside ≠ L.header := fun h => hne (L.inside_eq_header.mp h)
  obtain ⟨hexec, heffects⟩ := hrepeat
  have hfirst := L.nest_step_block (N := N) (K := K) (BitVec.ofNat w (j * K)) L.header
    (BitVec.ofNat w ((j + 1) * K)) ψ s
  simp only [hexiting, hleave, ExitCmp.value_of_leaves hleave, and_self, if_true] at hfirst
  have hsecond := L.nest_step_outerLatch (N := N) (K := K) hNw (j := j) (by omega)
    (BitVec.ofNat w ((j + 1) * K)) ψ
    (L.exec L.header L.exitCmp.exitOnTrue (BitVec.ofNat w ((j + 1) * K)) ψ s)
  rw [if_pos hlt, if_pos ⟨hexiting, fun h => hne (hexiting.trans h.symm)⟩] at hsecond
  have hthird := L.nest_step_block (N := N) (K := K) (BitVec.ofNat w ((j + 1) * K)) L.header
    (BitVec.ofNat w ((j + 1) * K)) ψ
    (L.exec L.header L.exitCmp.exitOnTrue (BitVec.ofNat w ((j + 1) * K)) ψ s)
  simp only [hexiting, hstay, ExitCmp.value_of_stays hstay, hinside, hexec, if_true, if_false,
    and_false, Bool.true_eq_false] at hthird
  have hprogram := L.program_step_block L.header (BitVec.ofNat w ((j + 1) * K)) ψ s
  simp only [hexiting, hloop, ExitCmp.value_of_stays hloop, hinside, if_true, if_false, and_false,
    Bool.true_eq_false] at hprogram
  refine ⟨4, by omega, ?_, ?_⟩
  · simp only [EffectProgram.performed, hfirst, hsecond, nest_step_outerHeader]
    simpa [program, nest, ExitCmp.value_of_stays hloop, ExitCmp.value_of_leaves hleave,
      ExitCmp.value_of_stays hstay] using heffects.symm
  · simp only [Function.iterate_succ_apply, Function.iterate_zero_apply, hprogram, hfirst, hsecond,
      nest_step_outerHeader, hthird]
    exact .block ((Nat.succ_mul j K).trans_lt hlt) le_rfl hlast fun _ => hnext

/-- **A further chunk of a loop that exits from its latch.** The last iteration of a chunk goes on
in the header of the next one. -/
private theorem follows_latch (hNw : N < 2 ^ w) {j x : ℕ} {ψ : Ψ} {s : ρ} (hlt : j * K + K < N)
    (hx : x + 1 = (j + 1) * K) (heq : L.exiting = L.latch)
    (hsame : L.SameBlock L.latch (BitVec.ofNat w x) ψ s true false)
    (hlast : (j + 1) * K ≤ L.original.lastOf (limitOf N K (j + 1)))
    (hloop : L.exitCmp.stays (BitVec.ofNat w x) L.origBound = true)
    (hleave : L.exitCmp.stays (BitVec.ofNat w x) (L.chunkBound N K (BitVec.ofNat w (j * K)))
      = false) :
    L.Follows N K (.block L.latch (BitVec.ofNat w x, ψ) s)
      (.block (BitVec.ofNat w (j * K)) L.latch (BitVec.ofNat w x) ψ s) := by
  have hinside : L.inside = L.header := L.inside_eq_header.mpr heq
  have hsucc : BitVec.ofNat w x + 1 = BitVec.ofNat w ((j + 1) * K) := by
    rw [← hx]
    exact (BitVec.ofNat_add x 1).symm
  have hsame := hsame.of_true_false (L.exitCmp.value (BitVec.ofNat w x) L.origBound)
    (L.exitCmp.value (BitVec.ofNat w x) (L.chunkBound N K (BitVec.ofNat w (j * K))))
  have hcarried := hsame.carried rfl
  rw [hsame.exec] at hcarried
  have hfirst := L.nest_step_block (N := N) (K := K) (BitVec.ofNat w (j * K)) L.latch
    (BitVec.ofNat w x) ψ s
  simp only [heq, hleave, and_self, if_true] at hfirst
  have hsecond := L.nest_step_outerLatch (N := N) (K := K) hNw (j := j) (by omega)
    (BitVec.ofNat w x) ψ (L.exec L.latch
      (L.exitCmp.value (BitVec.ofNat w x) (L.chunkBound N K (BitVec.ofNat w (j * K))))
      (BitVec.ofNat w x) ψ s)
  rw [if_pos hlt, if_neg fun h => h.2 (heq.symm.trans h.1), ← hcarried] at hsecond
  have hprogram := L.program_step_block L.latch (BitVec.ofNat w x) ψ s
  simp only [heq, hloop, hinside, if_true, if_false, and_false, Bool.true_eq_false, hsame.exec,
    hsucc] at hprogram
  refine ⟨3, by omega, ?_, ?_⟩
  · simp only [EffectProgram.performed, hfirst, hsecond]
    simpa [program, nest] using hsame.effects
  · simp only [Function.iterate_succ_apply, Function.iterate_zero_apply, hprogram, hfirst, hsecond,
      nest_step_outerHeader]
    exact .block ((Nat.succ_mul j K).trans_lt hlt) le_rfl hlast fun h => absurd rfl h

section Planned

variable {n : ℕ} (hbtc : L.original.BackedgeTaken n)
  (hmatch : L.original.matchExitRewriteForm N = true)
  (hN : N = if L.original.exitAtLatch then n + 1 else n) (hK : 2 ≤ K) (hKN : K < N)
  (hwrap : (N + K - 1) / K * K < 2 ^ w) (hp : L.exitCmp.stayPredicate ≠ .sgt)

include hK hwrap in
/-- No chunk wraps around. -/
private theorem chunk_lt {j : ℕ} (hstart : j * K < N) : N < 2 ^ w ∧ j * K + K < 2 ^ w := by
  have hhigh : N + K - 1 < (N + K - 1) / K * K + K := Nat.lt_div_mul_add (by omega)
  have hdiv : j + 1 ≤ (N + K - 1) / K := by
    rw [Nat.le_div_iff_mul_le (by omega), Nat.succ_mul]
    omega
  have hmul := Nat.mul_le_mul_right K hdiv
  rw [Nat.succ_mul] at hmul
  exact ⟨by omega, by omega⟩

include hbtc hN in
/-- The test of the loop. -/
private theorem stays_original :
    (∀ x < L.original.lastOf N, L.exitCmp.stays (BitVec.ofNat w x) L.origBound = true) ∧
      L.exitCmp.stays (BitVec.ofNat w (L.original.lastOf N)) L.origBound = false := by
  obtain ⟨-, hstay, hexit⟩ := hbtc
  have hlast : L.original.lastOf N = n := by
    rw [ExitLoop.lastOf, hN]
    split_ifs <;> omega
  rw [hlast]
  exact ⟨hstay, hexit⟩

include hbtc hmatch hN hK hKN hwrap hp

/-- The test of a chunk. -/
private theorem stays_chunk {j : ℕ} (hstart : j * K < N) :
    (∀ x < L.original.lastOf (limitOf N K j),
        L.exitCmp.stays (BitVec.ofNat w x) (L.chunkBound N K (BitVec.ofNat w (j * K))) = true) ∧
      L.exitCmp.stays (BitVec.ofNat w (L.original.lastOf (limitOf N K j)))
        (L.chunkBound N K (BitVec.ofNat w (j * K))) = false := by
  obtain ⟨hNw, hend⟩ := chunk_lt hK hwrap hstart
  have hlimit := ExitLoop.innerLimit_ofNat (N := N) hNw hend
  obtain ⟨hstay, hexit⟩ := ExitLoop.stays_chunk hbtc hmatch hN (by omega) hlimit (by omega)
    (min_le_right _ _)
  exact ⟨hstay (.inl hp), hexit⟩

/-- The last test of a chunk that is not the last one: the loop stays, the nest leaves. -/
private theorem follows_chunk_end {j : ℕ} {b : β} {ψ : Ψ} {s : ρ} (hstart : j * K < N)
    (hlt : j * K + K < N)
    (hharm : L.Harmless N K (.block b (BitVec.ofNat w (L.original.lastOf (limitOf N K j)), ψ) s))
    (hbody : b ≠ L.header → L.original.lastOf (limitOf N K j) < limitOf N K j) :
    L.Follows N K (.block b (BitVec.ofNat w (L.original.lastOf (limitOf N K j)), ψ) s)
      (.block (BitVec.ofNat w (j * K)) b
        (BitVec.ofNat w (L.original.lastOf (limitOf N K j))) ψ s) := by
  obtain ⟨hNw, -⟩ := chunk_lt hK hwrap hstart
  have hsucc : (j + 1) * K = j * K + K := Nat.succ_mul j K
  have hlimit : limitOf N K j = (j + 1) * K := by
    rw [limitOf, hsucc]
    omega
  have hnext : (j + 1) * K < limitOf N K (j + 1) := by
    rw [limitOf]
    omega
  have hloop := (stays_original hbtc hN).1
  have hleave := (stays_chunk hbtc hmatch hN hK hKN hwrap hp hstart).2
  have hstay := (stays_chunk hbtc hmatch hN hK hKN hwrap hp (hsucc.trans_lt hlt)).1
  cases hlatch : L.original.exitAtLatch with
  | false =>
    have hlast : ∀ l, L.original.lastOf l = l := fun l => by simp [ExitLoop.lastOf, hlatch]
    simp only [hlast, hlimit] at hbody hharm hloop hleave hstay ⊢
    have hne : L.exiting ≠ L.latch := of_decide_eq_false hlatch
    obtain rfl : b = L.header := by
      by_contra hb
      exact absurd (hbody hb) (lt_irrefl _)
    have hnat : (BitVec.ofNat w ((j + 1) * K)).toNat = (j + 1) * K := by
      rw [BitVec.toNat_ofNat, Nat.mod_eq_of_lt (by omega)]
    simp only [Harmless, hlatch, hnat, Bool.false_eq_true, if_false] at hharm
    have hrepeat := hharm trivial (by omega) (Nat.dvd_mul_left _ _) (by omega)
    exact follows_header hNw hlt hne hrepeat hnext (by rw [hlast]; exact hnext.le)
      (hloop _ (by omega)) hleave (hstay _ hnext)
  | true =>
    have hlast : ∀ l, L.original.lastOf l = l - 1 := fun l => by simp [ExitLoop.lastOf, hlatch]
    have heq : L.exiting = L.latch := of_decide_eq_true hlatch
    obtain ⟨x, hx⟩ : ∃ x, (j + 1) * K = x + 1 := ⟨(j + 1) * K - 1, by omega⟩
    simp only [hlast, hlimit, hx, Nat.add_sub_cancel] at hbody hharm hloop hleave hstay ⊢
    have hnat : (BitVec.ofNat w x).toNat = x := by
      rw [BitVec.toNat_ofNat, Nat.mod_eq_of_lt (by omega)]
    simp only [Harmless, hlatch, hnat, if_true] at hharm
    have hsame := hharm (hx ▸ Nat.dvd_mul_left _ _) (by omega)
    by_cases hb : b = L.exiting
    · obtain rfl : b = L.latch := hb.trans heq
      exact follows_latch hNw hlt hx.symm heq hsame (by rw [hlast]; omega)
        (hloop x (by omega)) hleave
    · exact follows_block hstart (by omega) (by rw [hlimit]; omega)
        (fun hlatch => absurd (hlatch.trans heq.symm) hb) (by rw [hlast, hlimit]; omega)
        (hsame.of_true_false _ _) fun h => absurd h hb

/-- **Every step of the loop is followed** if the end of a chunk goes unnoticed. -/
private theorem follows_of_matches {c : LoopConfig β (BitVec w × Ψ) ρ Unit} {d : ExitConfig w β Ψ ρ}
    (hharm : L.Harmless N K c) (h : L.Matches N K c d) : L.Follows N K c d := by
  cases h with
  | exited => exact ⟨1, Nat.one_pos, rfl, .exited⟩
  | @block j x b ψ s hstart hge hle hbody =>
    obtain ⟨hNw, hend⟩ := chunk_lt hK hwrap hstart
    obtain ⟨hloop, hloopEnd⟩ := stays_original hbtc hN
    obtain ⟨hnest, hnestEnd⟩ := stays_chunk hbtc hmatch hN hK hKN hwrap hp hstart
    have hlow : limitOf N K j ≤ N := min_le_right _ _
    have hlast : ∀ l, L.original.lastOf l = if L.original.exitAtLatch then l - 1 else l :=
      fun _ => rfl
    rcases hle.lt_or_eq with hlt | rfl
    · -- inside a chunk both stay
      have hboth : L.exitCmp.stays (BitVec.ofNat w x) L.origBound = true ∧ L.exitCmp.stays
          (BitVec.ofNat w x) (L.chunkBound N K (BitVec.ofNat w (j * K))) = true := by
        refine ⟨hloop x (hlt.trans_le ?_), hnest x hlt⟩
        rw [hlast, hlast]
        split_ifs <;> omega
      have hvalue := (ExitCmp.value_of_stays hboth.1).trans (ExitCmp.value_of_stays hboth.2).symm
      refine follows_block hstart hge ?_ (fun _ => hlt) hle (hvalue ▸ .refl b _ ψ s _)
        fun _ => hboth
      rw [hlast] at hlt
      split_ifs at hlt <;> omega
    · by_cases hlastChunk : j * K + K < N
      · exact follows_chunk_end hbtc hmatch hN hK hKN hwrap hp hstart hlastChunk hharm hbody
      · -- at the end of the last chunk both leave
        have hlimit : limitOf N K j = N := min_eq_right (not_lt.mp hlastChunk)
        rw [hlimit] at hbody hnestEnd ⊢
        by_cases hb : b = L.exiting
        · subst hb
          exact follows_leave hNw hend (not_lt.mp hlastChunk) hloopEnd hnestEnd
        · have hvalue := (ExitCmp.value_of_leaves hloopEnd).trans
            (ExitCmp.value_of_leaves hnestEnd).symm
          have hlt : L.original.lastOf N < N := by
            by_cases hheader : b = L.header
            · have hlatch : L.original.exitAtLatch = true :=
                decide_eq_true (L.exiting_eq.resolve_left fun h => hb (hheader.trans h.symm))
              rw [hlast, if_pos hlatch]
              omega
            · exact hbody hheader
          refine follows_block hstart (hlimit ▸ hge) (hlimit.symm ▸ hlt) (fun hback => ?_)
            (hlimit.symm ▸ le_rfl) (hvalue ▸ .refl b _ ψ s _) fun h => absurd h hb
          -- only a loop that exits from its header can be here with another exiting block
          have hlatch : ¬L.original.exitAtLatch = true := fun h =>
            hb (hback.trans (of_decide_eq_true h).symm)
          rw [hlast, if_neg hlatch] at hlt
          exact absurd hlt (lt_irrefl _)

end Planned

end EffectLoop

/-- **When the end of a chunk goes unnoticed, strip mining keeps the behaviour.** -/
theorem strip_mined_same_behaviour {w : ℕ} {β Ψ ρ ε : Type*} [DecidableEq β]
    (L : EffectLoop w β Ψ ρ ε) {n N K : ℕ} (hbtc : L.original.BackedgeTaken n)
    (hmatch : L.original.matchExitRewriteForm N = true)
    (hN : N = if L.original.exitAtLatch then n + 1 else n) (hK : 2 ≤ K) (hKN : K < N)
    (hwrap : (N + K - 1) / K * K < 2 ^ w) (ψ : Ψ) (s : ρ) (hp : L.exitCmp.stayPredicate ≠ .sgt)
    (hharm : ∀ k, L.Harmless N K (L.program.step^[k] (.block L.header (0, ψ) s))) :
    EffectProgram.SameBehaviour L.program (L.nest N K) (.block L.header (0, ψ) s)
      (.outerHeader 0 ψ s) := by
  refine .of_silent rfl ?_
  refine EffectProgram.sameBehaviour_of_follows
    (R := fun c d => (∀ k, L.Harmless N K (L.program.step^[k] c)) ∧ L.Matches N K c d) ?_ ?_
    ⟨hharm, ?_⟩
  · rintro c d ⟨hc, hmatches⟩
    obtain ⟨m, hpos, heffects, hnext⟩ :=
      EffectLoop.follows_of_matches hbtc hmatch hN hK hKN hwrap hp (hc 0) hmatches
    exact ⟨m, hpos, heffects, fun k => hc (k + 1), hnext⟩
  · rintro c d ⟨-, hmatches⟩
    cases hmatches with
    | block => rfl
    | exited => rfl
  · have hlimit : K ≤ EffectLoop.limitOf N K 0 := by
      rw [EffectLoop.limitOf]
      omega
    rw [EffectLoop.nest_step_outerHeader]
    simpa using EffectLoop.Matches.block (L := L) (N := N) (K := K) (j := 0) (x := 0)
      (b := L.header)
      (ψ := ψ) (s := s) (by omega) (by omega) (Nat.zero_le _) (fun h => absurd rfl h)

/-- `for (i = 0; i != 4; i++)` with the exit at the header, and a store of `i` in the header or in
the latch. -/
def storingLoop (storeAtLatch : Bool) : EffectLoop 32 Bool Unit Unit (BitVec 32) where
  header := false
  latch := true
  exiting := false
  exitCmp := ⟨.eq, Fin.last 1, true, true⟩
  origBound := 4
  exec _ _ _ _ _ := ()
  effects b _ i _ _ := if b = storeAtLatch then [i] else []
  next b _ _ _ _ := !b
  inside := true
  carried _ _ _ _ := ()
  exiting_eq := .inl rfl
  inside_eq_header := by decide
  next_eq_header b _ _ _ _ h := by simpa using h

/-- With the store in the latch the nest does what the loop does. -/
theorem strip_mined_same_behaviour_storingLoop :
    EffectProgram.SameBehaviour (storingLoop true).program ((storingLoop true).nest 4 2)
      (.block false (0, ()) ()) (.outerHeader 0 () ()) := by
  refine strip_mined_same_behaviour (storingLoop true) (n := 4) (N := 4) (K := 2) (by decide)
    (by decide) (by decide) (by decide) (by decide) (by decide) () () (by decide) fun k => ?_
  generalize (storingLoop true).program.step^[k] _ = c
  cases c with
  | block b φ s => exact fun _ _ _ _ => ⟨rfl, rfl⟩
  | exited e φ s => trivial

/-- **A store in the header is done twice.** The loop stores `0, 1, 2, 3, 4`, and the nest with
chunks of two iterations stores `0, 1, 2, 2`. -/
theorem strip_mined_repeats_store :
    (storingLoop false).original.BackedgeTaken 4 ∧
      (storingLoop false).original.matchExitRewriteForm 4 = true ∧
      (storingLoop false).original.tryStripMiningPlan (some 4) 2 = some ⟨4, 2⟩ ∧
      (4 + 2 - 1) / 2 * 2 < 2 ^ 32 ∧
      ¬EffectProgram.SameBehaviour (storingLoop false).program ((storingLoop false).nest 4 2)
        (.block false (0, ()) ()) (.outerHeader 0 () ()) := by
  refine ⟨by decide, by decide, by decide, by decide, fun h => ?_⟩
  have hnest : ((storingLoop false).nest 4 2).Performs (.outerHeader 0 () ()) [0, 1, 2, 2] :=
    ⟨9, by decide⟩
  have hloop : (storingLoop false).program.result ((storingLoop false).program.step^[9]
    (.block false (0, ()) ())) = some (4, (), ()) := by decide
  rw [← h.performs_iff, EffectProgram.performs_iff_of_result hloop] at hnest
  revert hnest
  decide

end Bao.Milp
