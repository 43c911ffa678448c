import Bao.Machine.Logs
import Bao.Milp.StripMiningTripCount

/-!
# The iterations of a strip-mined loop

A rewritten exit has to keep the iteration space: the nest runs the body for the values
`0, 1, ..., N - 1` of the induction variable, once each and in this order, and enters the inner loop
anew after at most `K` of them (`KeepsIterations`).

A chunk does its part when its exit test holds below the limit of the chunk and fails at it
(`stays_below`, `stays_end`). The bound of the original loop is known to work, and a smaller limit
works as well for every comparison but one: a loop that goes on while its variable is *signed
greater* than the constant `2 ^ (w - 1)`, the least signed value, counts up to it, but it leaves a
chunk at once when the limit is a small number instead.

The other thing that goes wrong is the end of the range. If `outer.iv + K` wraps around in the last
chunk, the outer loop goes on below the values it has done already.
-/

namespace Bao.Milp

open Machine

/-! ### The comparison that stays in the loop -/

/-- `CmpInst::getSwappedPredicate`. -/
def ICmpPredicate.getSwappedPredicate : ICmpPredicate → ICmpPredicate
  | .eq => .eq
  | .ne => .ne
  | .ugt => .ult
  | .uge => .ule
  | .ult => .ugt
  | .ule => .uge
  | .sgt => .slt
  | .sge => .sle
  | .slt => .sgt
  | .sle => .sge

/-- `CmpInst::getInversePredicate`. -/
def ICmpPredicate.getInversePredicate : ICmpPredicate → ICmpPredicate
  | .eq => .ne
  | .ne => .eq
  | .ugt => .ule
  | .uge => .ult
  | .ult => .uge
  | .ule => .ugt
  | .sgt => .sle
  | .sge => .slt
  | .slt => .sge
  | .sle => .sgt

theorem ICmpPredicate.eval_getSwappedPredicate {w : ℕ} (p : ICmpPredicate) (a b : BitVec w) :
    p.getSwappedPredicate.eval a b = p.eval b a := by
  cases p <;> simp [getSwappedPredicate, eval, BEq.comm, bne_comm]

theorem ICmpPredicate.eval_getInversePredicate {w : ℕ} (p : ICmpPredicate) (a b : BitVec w) :
    p.getInversePredicate.eval a b = !p.eval a b := by
  cases p <;> simp [getInversePredicate, eval, bne, BitVec.ule_eq_not_ult, BitVec.sle_eq_not_slt]

/-- The comparison of the induction variable to the bound under which the loop goes on. -/
def ExitCmp.stayPredicate (c : ExitCmp) : ICmpPredicate :=
  let p := if c.boundOperandIdx.val = 1 then c.predicate else c.predicate.getSwappedPredicate
  if c.exitOnTrue then p.getInversePredicate else p

theorem ExitCmp.test_eq {w : ℕ} (c : ExitCmp) (x bound : BitVec w) :
    c.test x bound = c.stayPredicate.eval x bound := by
  simp only [test, stayPredicate, Fin.ext_iff, Fin.val_one]
  split_ifs <;> simp_all [ICmpPredicate.eval_getSwappedPredicate,
    ICmpPredicate.eval_getInversePredicate]

section Predicate

variable {w : ℕ} {p : ICmpPredicate}

/-- A signed comparison in terms of the unsigned values. -/
private theorem toInt_ofNat_cond {x : ℕ} (hx : x < 2 ^ w) :
    (BitVec.ofNat w x).toInt = if 2 * x < 2 ^ w then (x : ℤ) else (x : ℤ) - (2 ^ w : ℕ) := by
  rw [BitVec.toInt_eq_toNat_cond, BitVec.toNat_ofNat, Nat.mod_eq_of_lt hx]

/-- **Counting up to a smaller bound.** If the comparison holds from `1` (or `0`) up to a bound `B`
and fails at it, then it holds up to every smaller bound, unless it is signed greater. -/
private theorem eval_below (lo : ℕ) {B b x : ℕ} (hlo : lo ≤ 1) (hB : 2 ≤ B) (hBw : B < 2 ^ w)
    (hstay : ∀ x, lo ≤ x → x < B → p.eval (BitVec.ofNat w x) (BitVec.ofNat w B) = true)
    (hexit : p.isTrueWhenEqual = false) (hb : b ≤ B) (hp : p ≠ .sgt ∨ b = B) (hx : lo ≤ x)
    (hxb : x < b) : p.eval (BitVec.ofNat w x) (BitVec.ofNat w b) = true := by
  have hone := hstay 1 hlo (by omega)
  have hnat : ∀ y < 2 ^ w, (BitVec.ofNat w y).toNat = y := fun y hy => by
    rw [BitVec.toNat_ofNat, Nat.mod_eq_of_lt hy]
  rcases hp with hp | rfl
  · cases p with
    | eq | uge | ule | sge | sle => simp [ICmpPredicate.isTrueWhenEqual] at hexit
    | sgt => exact absurd rfl hp
    | ne =>
      simp only [ICmpPredicate.eval, bne_iff_ne, ne_eq, ← BitVec.toNat_inj]
      rw [hnat x (by omega), hnat b (by omega)]
      omega
    | ult =>
      simp only [ICmpPredicate.eval, BitVec.ult, decide_eq_true_eq]
      rw [hnat x (by omega), hnat b (by omega)]
      exact hxb
    | ugt =>
      simp only [ICmpPredicate.eval, BitVec.ult, decide_eq_true_eq] at hone
      rw [hnat 1 (by omega), hnat B hBw] at hone
      omega
    | slt =>
      -- the bound is positive, so all values below it are
      simp only [ICmpPredicate.eval, BitVec.slt, decide_eq_true_eq] at hone ⊢
      rw [toInt_ofNat_cond (by omega), toInt_ofNat_cond hBw] at hone
      rw [toInt_ofNat_cond (by omega), toInt_ofNat_cond (by omega)]
      split_ifs at hone ⊢ <;> omega
  · exact hstay x hx hxb

/-- **Counting up to a smaller bound, inclusive.** If the comparison holds from `1` up to `B` and
fails at `B + 1`, then it is a less-or-equal, and the same is true of every smaller bound. -/
private theorem eval_upto {B b : ℕ} (hB : 2 ≤ B) (hBw : B < 2 ^ w)
    (hstay : ∀ x, 1 ≤ x → x ≤ B → p.eval (BitVec.ofNat w x) (BitVec.ofNat w B) = true)
    (hexit : p.eval (BitVec.ofNat w (B + 1)) (BitVec.ofNat w B) = false) (hb : b ≤ B) :
    (∀ x ≤ b, p.eval (BitVec.ofNat w x) (BitVec.ofNat w b) = true) ∧
      p.eval (BitVec.ofNat w (b + 1)) (BitVec.ofNat w b) = false := by
  have hone := hstay 1 (by omega) (by omega)
  have hpred := hstay (B - 1) (by omega) (by omega)
  have hself := hstay B (by omega) le_rfl
  have hnat : ∀ y < 2 ^ w, (BitVec.ofNat w y).toNat = y := fun y hy => by
    rw [BitVec.toNat_ofNat, Nat.mod_eq_of_lt hy]
  rw [ICmpPredicate.eval_self] at hself
  cases p with
  | ne | ugt | ult | sgt | slt => simp [ICmpPredicate.isTrueWhenEqual] at hself
  | eq =>
    simp only [ICmpPredicate.eval, beq_iff_eq, ← BitVec.toNat_inj] at hone
    rw [hnat 1 (by omega), hnat B hBw] at hone
    omega
  | uge =>
    simp only [ICmpPredicate.eval, BitVec.ule, decide_eq_true_eq] at hone
    rw [hnat 1 (by omega), hnat B hBw] at hone
    omega
  | sge =>
    -- the bound would be the least signed value, which no value is below
    simp only [ICmpPredicate.eval, BitVec.sle, decide_eq_true_eq, decide_eq_false_iff_not] at *
    rw [toInt_ofNat_cond (by omega), toInt_ofNat_cond (by omega)] at hone hpred
    have heven : 2 ∣ 2 ^ w := dvd_pow_self 2 (by rintro rfl; omega)
    have hhalf : 2 * B = 2 ^ w := by
      split_ifs at hone hpred <;> omega
    rw [toInt_ofNat_cond (by omega), toInt_ofNat_cond (by omega)] at hexit
    split_ifs at hexit <;> omega
  | ule =>
    simp only [ICmpPredicate.eval, BitVec.ule, decide_eq_true_eq, decide_eq_false_iff_not] at *
    have hsucc : B + 1 < 2 ^ w := by
      by_contra hge
      have hzero : (BitVec.ofNat w (B + 1)).toNat = 0 := by
        rw [BitVec.toNat_ofNat, show B + 1 = 2 ^ w by omega, Nat.mod_self]
      omega
    refine ⟨fun x hx => ?_, ?_⟩
    · rw [hnat x (by omega), hnat b (by omega)]
      exact hx
    · rw [hnat (b + 1) (by omega), hnat b (by omega)]
      omega
  | sle =>
    simp only [ICmpPredicate.eval, BitVec.sle, decide_eq_true_eq, decide_eq_false_iff_not] at *
    rw [toInt_ofNat_cond (by omega), toInt_ofNat_cond hBw] at hone
    have hhalf : 2 * B < 2 ^ w := by
      split_ifs at hone <;> omega
    rw [toInt_ofNat_cond (by omega), toInt_ofNat_cond hBw] at hexit
    have hsucc : 2 * (B + 1) < 2 ^ w := by
      split_ifs at hexit <;> omega
    refine ⟨fun x hx => ?_, ?_⟩
    · rw [toInt_ofNat_cond (by omega), toInt_ofNat_cond (by omega), if_pos (by omega),
        if_pos (by omega)]
      omega
    · rw [toInt_ofNat_cond (by omega), toInt_ofNat_cond (by omega), if_pos (by omega),
        if_pos (by omega)]
      omega

/-- **Signed greater.** A comparison that counts up to `B` by signed greater has the least signed
value for `B`, and fails at once for every smaller bound. -/
private theorem eval_sgt_small (lo : ℕ) {B : ℕ} (hlo : lo ≤ 1) (hB : 2 ≤ B) (hBw : B < 2 ^ w)
    (hstay : ∀ x, lo ≤ x → x < B →
      ICmpPredicate.sgt.eval (BitVec.ofNat w x) (BitVec.ofNat w B) = true) :
    2 * (B - 1) < 2 ^ w ∧ ∀ b < B, ∀ x ≤ b,
      ICmpPredicate.sgt.eval (BitVec.ofNat w x) (BitVec.ofNat w b) = false := by
  have hpred := hstay (B - 1) (by omega) (by omega)
  simp only [ICmpPredicate.eval, BitVec.slt, decide_eq_true_eq, decide_eq_false_iff_not] at hpred ⊢
  rw [toInt_ofNat_cond (by omega), toInt_ofNat_cond (by omega)] at hpred
  have hhalf : 2 * (B - 1) < 2 ^ w := by
    split_ifs at hpred <;> omega
  refine ⟨hhalf, fun b hb x hx => ?_⟩
  rw [toInt_ofNat_cond (by omega), toInt_ofNat_cond (by omega), if_pos (by omega),
    if_pos (by omega)]
  omega

end Predicate

private theorem ofNat_succ (w i : ℕ) : BitVec.ofNat w i + 1 = BitVec.ofNat w (i + 1) :=
  (BitVec.ofNat_add i 1).symm

private theorem ofNat_pred {w l : ℕ} (hl : 0 < l) :
    BitVec.ofNat w l - 1 = BitVec.ofNat w (l - 1) := by
  rw [← Nat.sub_add_cancel hl, ← ofNat_succ, BitVec.add_sub_cancel, Nat.add_sub_cancel]

namespace ExitLoop

variable {w : ℕ} {β Ψ ρ : Type*} [DecidableEq β] {L : ExitLoop w β Ψ ρ} {N K : ℕ}

/-! ### The exit test of a chunk -/

/-- The value of the induction variable at which a chunk with a given limit leaves its inner
loop. -/
def lastOf (L : ExitLoop w β Ψ ρ) (limit : ℕ) : ℕ := if L.exitAtLatch then limit - 1 else limit

/-- The operand of the test is the variable plus this. -/
def ivOffset (L : ExitLoop w β Ψ ρ) : ℕ := if L.exitCmp.compareUsesCurrentIV then 0 else 1

/-- The bound of the test is the limit less this. -/
def boundOffset (L : ExitLoop w β Ψ ρ) : ℕ :=
  if L.exitCmp.compareUsesCurrentIV && L.exitAtLatch then 1 else 0

omit [DecidableEq β] in
private theorem stays_ofNat (i : ℕ) (bound : BitVec w) :
    L.exitCmp.stays (BitVec.ofNat w i) bound =
      L.exitCmp.stayPredicate.eval (BitVec.ofNat w (i + L.ivOffset)) bound := by
  rw [ExitCmp.stays, ExitCmp.test_eq, ivOffset]
  split_ifs
  · rfl
  · rw [ofNat_succ]

private theorem innerExitBound_ofNat {o : BitVec w} {l : ℕ}
    (hlimit : innerLimit N K o = BitVec.ofNat w l) (hl : 0 < l) :
    L.innerExitBound N K o = BitVec.ofNat w (l - L.boundOffset) := by
  rw [innerExitBound, boundOffset, hlimit]
  split_ifs
  · rw [ofNat_pred hl]
  · rfl

private theorem origBound_ofNat (hmatch : L.matchExitRewriteForm N = true) :
    L.origBound = BitVec.ofNat w (N - L.boundOffset) ∧ N - L.boundOffset < 2 ^ w := by
  have hbound : L.origBound.toNat = N - L.boundOffset := by
    rw [matchExitRewriteForm] at hmatch
    rw [boundOffset]
    split_ifs at hmatch ⊢
    · simp only [Bool.and_eq_true, decide_eq_true_eq] at hmatch
      exact hmatch.2
    · simpa using hmatch
  rw [← hbound]
  exact ⟨by simp, L.origBound.isLt⟩

private theorem offsets_le (L : ExitLoop w β Ψ ρ) (hthree : 3 ≤ N) :
    L.ivOffset ≤ 1 ∧ 2 ≤ N - L.boundOffset := by
  rw [ivOffset, boundOffset]
  split_ifs <;> omega

section Planned

variable {n : ℕ} (hbtc : L.BackedgeTaken n) (hmatch : L.matchExitRewriteForm N = true)
  (hN : N = if L.exitAtLatch then n + 1 else n) (hthree : 3 ≤ N)
include hbtc hmatch hN

/-- A loop that tests the value it is at, or leaves from its latch, meets its bound in the operand
of the test. -/
private theorem counts_below
    (hform : L.exitCmp.compareUsesCurrentIV = true ∨ L.exitAtLatch = true) :
    (∀ x, L.ivOffset ≤ x → x < N - L.boundOffset → L.exitCmp.stayPredicate.eval (BitVec.ofNat w x)
        (BitVec.ofNat w (N - L.boundOffset)) = true) ∧
      L.exitCmp.stayPredicate.isTrueWhenEqual = false := by
  obtain ⟨-, hstay, hexit⟩ := hbtc
  rw [(origBound_ofNat hmatch).1] at hstay hexit
  have hlast : n + L.ivOffset = N - L.boundOffset := by
    simp only [ivOffset, boundOffset, Bool.and_eq_true]
    rcases hform with hcur | hlatch
    · simp only [hcur, true_and, if_true]
      split_ifs at hN ⊢ <;> omega
    · rw [hlatch, if_pos rfl] at hN
      simp only [hlatch, and_true]
      split_ifs <;> omega
  refine ⟨fun x hx hlt => ?_, ?_⟩
  · have h := hstay (x - L.ivOffset) (by omega)
    rwa [stays_ofNat, Nat.sub_add_cancel hx] at h
  · rwa [stays_ofNat, hlast, ICmpPredicate.eval_self] at hexit

include hthree

/-- **The exit test of a chunk.** With a limit up to `N` the test holds below the last value, and
fails there; for a signed-greater test, the limit has to be `N` itself. -/
theorem stays_chunk {o : BitVec w} {l : ℕ} (hlimit : innerLimit N K o = BitVec.ofNat w l)
    (hl : 0 < l) (hle : l ≤ N) :
    ((L.exitCmp.stayPredicate ≠ .sgt ∨ l = N) → ∀ i < L.lastOf l,
        L.exitCmp.stays (BitVec.ofNat w i) (L.innerExitBound N K o) = true) ∧
      L.exitCmp.stays (BitVec.ofNat w (L.lastOf l)) (L.innerExitBound N K o) = false := by
  obtain ⟨hlo, hB⟩ := L.offsets_le hthree
  obtain ⟨horig, hBw⟩ := origBound_ofNat hmatch
  simp only [innerExitBound_ofNat hlimit hl, stays_ofNat]
  by_cases hform : L.exitCmp.compareUsesCurrentIV = true ∨ L.exitAtLatch = true
  · obtain ⟨hbelow, hequal⟩ := counts_below hbtc hmatch hN hform
    have hlast : L.lastOf l + L.ivOffset = l - L.boundOffset := by
      simp only [lastOf, ivOffset, boundOffset, Bool.and_eq_true]
      split_ifs <;> grind
    refine ⟨fun hp i hi => ?_, by rwa [hlast, ICmpPredicate.eval_self]⟩
    exact eval_below L.ivOffset hlo hB hBw hbelow hequal (by omega)
      (hp.imp_right fun h => by rw [h]) (by omega) (by omega)
  · -- a header test of the next value
    obtain ⟨-, hstay, hexit⟩ := hbtc
    obtain ⟨hcur, hlatch⟩ := not_or.mp hform
    simp only [horig, stays_ofNat, ivOffset, boundOffset, lastOf, hcur, hlatch, Bool.and_self,
      Bool.false_eq_true, if_false] at *
    subst hN
    obtain ⟨hbelow, hend⟩ := eval_upto hB hBw (fun x hx hxN => by
      have h := hstay (x - 1) (by omega)
      rwa [Nat.sub_add_cancel hx] at h) hexit hle
    exact ⟨fun _ i hi => hbelow (i + 1) (by omega), hend⟩

/-- **Signed greater** leaves a chunk at its first test, unless it is the last chunk. -/
private theorem stays_sgt (hsgt : L.exitCmp.stayPredicate = .sgt) :
    (L.exitAtLatch = false → 2 * (N - 1) < 2 ^ w) ∧ ∀ o l : ℕ,
      innerLimit N K (BitVec.ofNat w o) = BitVec.ofNat w l → o < l → l < N →
      L.exitCmp.stays (BitVec.ofNat w o) (L.innerExitBound N K (BitVec.ofNat w o)) = false := by
  obtain ⟨hlo, hB⟩ := L.offsets_le hthree
  obtain ⟨horig, hBw⟩ := origBound_ofNat hmatch
  have hform : L.exitCmp.compareUsesCurrentIV = true ∨ L.exitAtLatch = true := by
    by_contra hform
    obtain ⟨hcur, hlatch⟩ := not_or.mp hform
    have hequal := hbtc.2.1 (n - 1)
    simp only [horig, stays_ofNat, ivOffset, boundOffset, hcur, hlatch, Bool.and_self,
      Bool.false_eq_true, if_false] at hequal hN
    rw [Nat.sub_add_cancel (by omega), hN, Nat.sub_zero, ICmpPredicate.eval_self, hsgt] at hequal
    simpa [ICmpPredicate.isTrueWhenEqual] using hequal (by omega)
  obtain ⟨hbelow, -⟩ := counts_below hbtc hmatch hN hform
  rw [hsgt] at hbelow
  obtain ⟨hhalf, hsmall⟩ := eval_sgt_small L.ivOffset hlo hB hBw hbelow
  refine ⟨fun hlatch => ?_, fun o l hlimit hol hlN => ?_⟩
  · simpa [boundOffset, hlatch] using hhalf
  · rw [innerExitBound_ofNat hlimit (by omega), stays_ofNat, hsgt]
    refine hsmall _ ?_ _ ?_
    · rw [boundOffset] at hB ⊢
      split_ifs at hB ⊢ <;> omega
    · simp only [ivOffset, boundOffset, Bool.and_eq_true]
      split_ifs <;> grind

end Planned

/-! ### Iterations -/

/-- One block of an iteration in which the loop is not left. -/
def bodyStep (L : ExitLoop w β Ψ ρ) (i : BitVec w) (ψ : Ψ) (c : β × ρ) : β × ρ :=
  (if c.1 = L.exiting then L.inside else L.next c.1 i ψ (L.exec c.1 i ψ c.2), L.exec c.1 i ψ c.2)

/-- The loops inside the body terminate: an iteration in which the loop is not left comes back to
the header. -/
def IterationsReturn (L : ExitLoop w β Ψ ρ) : Prop :=
  ∀ i ψ s, ∃ n, ((L.bodyStep i ψ)^[n + 1] (L.header, s)).1 = L.header

/-- What is seen of a nest: the entries of the inner loop, and the executions of the body with the
value of the induction variable. -/
inductive IterationEvent
  | enter
  | body (iv : ℕ)
  deriving DecidableEq

/-- The body is executed at a visit of the header that does not leave the loop. -/
def observe (L : ExitLoop w β Ψ ρ) (N K : ℕ) : ExitConfig w β Ψ ρ → Option IterationEvent
  | .outerHeader _ _ _ => some .enter
  | .block o b i _ _ =>
    if b = L.header ∧ (L.exitAtLatch ∨ L.exitCmp.stays i (L.innerExitBound N K o)) then
      some (.body i.toNat)
    else none
  | .outerLatch _ _ _ _ => none
  | .exited _ _ _ => none

/-- The runs of a nest, with what is seen of them. -/
abbrev NestLogs (L : ExitLoop w β Ψ ρ) (N K : ℕ) := Logs (L.exitStep N K) (L.observe N K)

/-- **The nest keeps the iteration space**: it terminates, and its chunks of at most `K` iterations
make up `0, 1, ..., N - 1`. -/
def KeepsIterations (L : ExitLoop w β Ψ ρ) (N K : ℕ) (ψ : Ψ) (s : ρ) : Prop :=
  ∃ (chunks : List (List ℕ)) (i : BitVec w) (ψ' : Ψ) (s' : ρ),
    L.NestLogs N K (.outerHeader 0 ψ s) (chunks.flatMap fun c => .enter :: c.map .body)
      (.exited i ψ' s') ∧
    chunks.flatten = List.range N ∧ ∀ c ∈ chunks, c.length ≤ K

/-- **What a block of the loop does**, whatever the bound of its exit test. -/
theorem code_step_block (L : ExitLoop w β Ψ ρ) (bound : BitVec w) (b : β) (i : BitVec w) (ψ : Ψ)
    (s : ρ) : (L.code bound).step (.block b (i, ψ) s) =
      if b = L.exiting ∧ L.exitCmp.stays i bound = false then .exited () (i, ψ) (L.exec b i ψ s)
      else if (L.bodyStep i ψ (b, s)).1 = L.header then
        .block L.header (i + 1, L.carried i ψ (L.exec b i ψ s)) (L.exec b i ψ s)
      else .block (L.bodyStep i ψ (b, s)).1 (i, ψ) (L.exec b i ψ s) := by
  by_cases hb : b = L.exiting
  · cases hstays : L.exitCmp.stays i bound with
    | false => simp [LoopCode.step, code, hb, hstays]
    | true =>
      by_cases hinside : L.inside = L.header
      · simp [LoopCode.step, code, bodyStep, hb, hstays, hinside]
      · simp [LoopCode.step, code, bodyStep, hb, hstays, hinside]
  · by_cases hnext : L.next b i ψ (L.exec b i ψ s) = L.header
    · simp [LoopCode.step, code, bodyStep, hb, hnext]
    · simp [LoopCode.step, code, bodyStep, hb, hnext]

/-- **What a block of the nest does.** -/
theorem exitStep_block (L : ExitLoop w β Ψ ρ) (N K : ℕ) (o : BitVec w) (b : β) (i : BitVec w)
    (ψ : Ψ) (s : ρ) :
    L.exitStep N K (.block o b i ψ s) =
      if b = L.exiting ∧ L.exitCmp.stays i (L.innerExitBound N K o) = false then
        .outerLatch o i ψ (L.exec b i ψ s)
      else if (L.bodyStep i ψ (b, s)).1 = L.header then
        .block o L.header (i + 1) (L.carried i ψ (L.exec b i ψ s)) (L.exec b i ψ s)
      else .block o (L.bodyStep i ψ (b, s)).1 i ψ (L.exec b i ψ s) := by
  rw [exitStep, code_step_block]
  split_ifs <;> rfl

/-- Only the latch goes back to the header. -/
theorem eq_latch_of_bodyStep {i : BitVec w} {ψ : Ψ} {b : β} {s : ρ}
    (h : (L.bodyStep i ψ (b, s)).1 = L.header) : b = L.latch := by
  simp only [bodyStep] at h
  split_ifs at h with hb
  · exact hb.trans (L.inside_eq_header.mp h)
  · exact L.next_eq_header b i ψ _ h

section Iteration

variable {o i : BitVec w} {ψ : Ψ}

/-- Where an iteration ends: at the header again, or at `outer.latch`. -/
def Ended (L : ExitLoop w β Ψ ρ) (N K : ℕ) (o i : BitVec w) (d : ExitConfig w β Ψ ρ) : Prop :=
  (L.exitCmp.stays i (L.innerExitBound N K o) = true ∧
      ∃ ψ' s', d = .block o L.header (i + 1) ψ' s') ∨
    (L.exitCmp.stays i (L.innerExitBound N K o) = false ∧ ∃ ψ' s', d = .outerLatch o i ψ' s')

section Body

variable (hbody : L.exitAtLatch = true ∨ L.exitCmp.stays i (L.innerExitBound N K o) = true)
include hbody

/-- A block of an iteration whose body is executed ends the iteration or goes on inside it. -/
private theorem body_step (ψ : Ψ) (b : β) (s : ρ) :
    L.Ended N K o i (L.exitStep N K (.block o b i ψ s)) ∨
      (L.bodyStep i ψ (b, s)).1 ≠ L.header ∧ L.exitStep N K (.block o b i ψ s) =
        .block o (L.bodyStep i ψ (b, s)).1 i ψ (L.bodyStep i ψ (b, s)).2 := by
  rw [exitStep_block]
  split_ifs with hleave hheader
  · exact .inl (.inr ⟨hleave.2, ψ, _, rfl⟩)
  · refine .inl (.inl ⟨?_, _, _, rfl⟩)
    -- a loop that leaves from its latch has passed its test there
    by_contra hstays
    have hexit : L.exiting = L.latch := by simpa [exitAtLatch] using hbody.resolve_right hstays
    exact hleave ⟨(eq_latch_of_bodyStep hheader).trans hexit.symm, by simpa using hstays⟩
  · exact .inr ⟨hheader, rfl⟩

/-- The rest of an iteration whose body is executed, from any of its blocks. -/
private theorem logs_of_body {n : ℕ} {b : β} {s : ρ}
    (hn : ((L.bodyStep i ψ)^[n + 1] (b, s)).1 = L.header) :
    ∃ d, L.NestLogs N K (.block o b i ψ s) (L.observe N K (.block o b i ψ s)).toList d ∧
      L.Ended N K o i d := by
  induction n generalizing b s with
  | zero =>
    rcases body_step hbody ψ b s with hended | ⟨hne, -⟩
    · exact ⟨_, .single rfl, hended⟩
    · exact absurd hn hne
  | succ n ih =>
    rcases body_step hbody ψ b s with hended | ⟨hne, hstep⟩
    · exact ⟨_, .single rfl, hended⟩
    · obtain ⟨d, hlogs, hended⟩ :=
        ih (b := (L.bodyStep i ψ (b, s)).1) (s := (L.bodyStep i ψ (b, s)).2) hn
      refine ⟨d, ?_, hended⟩
      have hquiet : L.observe N K (.block o (L.bodyStep i ψ (b, s)).1 i ψ
          (L.bodyStep i ψ (b, s)).2) = none := by simp [observe, hne]
      rw [hquiet] at hlogs
      simpa using Logs.next hstep hlogs

/-- **An iteration** executes the body once. -/
theorem logs_iteration (hret : L.IterationsReturn) (ψ : Ψ) (s : ρ) :
    ∃ d, L.NestLogs N K (.block o L.header i ψ s) [.body i.toNat] d ∧ L.Ended N K o i d := by
  obtain ⟨n, hn⟩ := hret i ψ s
  have hseen : L.observe N K (.block o L.header i ψ s) = some (.body i.toNat) := by
    simp [observe, hbody]
  simpa [hseen] using logs_of_body hbody hn

end Body

/-- A chunk of a header-exiting loop leaves without executing the body. -/
theorem logs_leave (hlatch : L.exitAtLatch = false)
    (hstays : L.exitCmp.stays i (L.innerExitBound N K o) = false) (ψ : Ψ) (s : ρ) :
    ∃ s', L.NestLogs N K (.block o L.header i ψ s) [] (.outerLatch o i ψ s') := by
  have hexit : L.header = L.exiting := by
    refine (L.exiting_eq.resolve_right ?_).symm
    simpa [exitAtLatch] using hlatch
  have hstep := L.exitStep_block N K o L.header i ψ s
  rw [if_pos ⟨hexit, hstays⟩] at hstep
  have hquiet : L.observe N K (.block o L.header i ψ s) = none := by simp [observe, hlatch, hstays]
  have hlogs : L.NestLogs N K _ _ _ := .single hstep
  exact ⟨_, by simpa [hquiet] using hlogs⟩

end Iteration

/-! ### Chunks -/

/-- The inner loop from a value of the induction variable up to the last one of its chunk. -/
private theorem logs_inner (hret : L.IterationsReturn) {o : BitVec w} {l i : ℕ} (hlw : l < 2 ^ w)
    (hl : 0 < l) (hi : i ≤ L.lastOf l)
    (hstay : ∀ j, i ≤ j → j < L.lastOf l →
      L.exitCmp.stays (BitVec.ofNat w j) (L.innerExitBound N K o) = true)
    (hexit : L.exitCmp.stays (BitVec.ofNat w (L.lastOf l)) (L.innerExitBound N K o) = false)
    (ψ : Ψ) (s : ρ) :
    ∃ i' ψ' s', L.NestLogs N K (.block o L.header (BitVec.ofNat w i) ψ s)
      ((List.range' i (l - i)).map .body) (.outerLatch o i' ψ' s') := by
  obtain ⟨d, hd⟩ := Nat.exists_eq_add_of_le hi
  have hlast : L.lastOf l ≤ l := by
    rw [lastOf]
    split_ifs <;> omega
  induction d generalizing i ψ s with
  | zero =>
    obtain rfl : L.lastOf l = i := by omega
    cases hlatch : L.exitAtLatch with
    | true =>
      obtain ⟨c, hlogs, hend⟩ := logs_iteration (.inl hlatch) hret ψ s
      rcases hend with ⟨hstays, -⟩ | ⟨-, ψ', s', rfl⟩
      · rw [hexit] at hstays
        exact absurd hstays (by simp)
      · refine ⟨BitVec.ofNat w (L.lastOf l), ψ', s', ?_⟩
        have hone : l - L.lastOf l = 1 := by
          rw [lastOf, if_pos hlatch]
          omega
        rw [hone]
        simpa [Nat.mod_eq_of_lt (hlast.trans_lt hlw)] using hlogs
    | false =>
      obtain ⟨s', hlogs⟩ := logs_leave hlatch hexit ψ s
      refine ⟨BitVec.ofNat w (L.lastOf l), ψ, s', ?_⟩
      have hnone : l - L.lastOf l = 0 := by
        rw [lastOf, if_neg (by simp [hlatch])]
        omega
      rw [hnone]
      exact hlogs
  | succ d ih =>
    have hstays := hstay i le_rfl (by omega)
    obtain ⟨c, hlogs, hend⟩ := logs_iteration (.inr hstays) hret ψ s
    rcases hend with ⟨-, ψ', s', rfl⟩ | ⟨hnot, -⟩
    · rw [ofNat_succ] at hlogs
      obtain ⟨i', ψ'', s'', hrest⟩ :=
        ih (i := i + 1) (by omega) (fun j hj => hstay j (by omega)) ψ' s' (by omega)
      refine ⟨i', ψ'', s'', ?_⟩
      have hrange : List.range' i (l - i) = i :: List.range' (i + 1) (l - (i + 1)) := by
        rw [show l - i = l - (i + 1) + 1 by omega, List.range'_succ]
      rw [hrange]
      simpa [Nat.mod_eq_of_lt (show i < 2 ^ w by omega)] using hlogs.trans hrest
    · rw [hstays] at hnot
      exact absurd hnot (by simp)

/-- `outer.iv.next` against `N`. -/
theorem add_ult_iff (hNw : N < 2 ^ w) (o : ℕ) :
    (BitVec.ofNat w o + BitVec.ofNat w K).ult (BitVec.ofNat w N) = true ↔ (o + K) % 2 ^ w < N := by
  rw [← BitVec.ofNat_add, BitVec.ult, decide_eq_true_eq, BitVec.toNat_ofNat, BitVec.toNat_ofNat,
    Nat.mod_eq_of_lt hNw]

/-- The limit of a chunk whose end does not wrap around. -/
theorem innerLimit_ofNat (hNw : N < 2 ^ w) {o : ℕ} (hwrap : o + K < 2 ^ w) :
    innerLimit N K (BitVec.ofNat w o) = BitVec.ofNat w (min (o + K) N) := by
  simp only [innerLimit, add_ult_iff hNw, Nat.mod_eq_of_lt hwrap]
  split_ifs with h
  · rw [min_eq_left h.le, BitVec.ofNat_add]
  · rw [min_eq_right (not_lt.mp h)]

/-- `outer.latch` goes on with the next chunk, wherever that is. -/
private theorem logs_outerLatch_next (hNw : N < 2 ^ w) {o : ℕ} (hlt : (o + K) % 2 ^ w < N)
    (i : BitVec w) (ψ : Ψ) (s : ρ) :
    L.NestLogs N K (.outerLatch (BitVec.ofNat w o) i ψ s) []
      (.outerHeader (BitVec.ofNat w ((o + K) % 2 ^ w)) (L.forward i ψ s) s) := by
  have hnext : BitVec.ofNat w o + BitVec.ofNat w K = BitVec.ofNat w ((o + K) % 2 ^ w) := by
    rw [← BitVec.ofNat_add]
    refine BitVec.eq_of_toNat_eq ?_
    rw [BitVec.toNat_ofNat, BitVec.toNat_ofNat, Nat.mod_mod]
  refine .next ?_ (.refl _)
  rw [exitStep, if_pos ((add_ult_iff hNw o).mpr hlt), hnext]

/-- `outer.latch` leaves the nest. -/
private theorem logs_outerLatch_exit (hNw : N < 2 ^ w) {o : ℕ} (hge : N ≤ (o + K) % 2 ^ w)
    (i : BitVec w) (ψ : Ψ) (s : ρ) :
    L.NestLogs N K (.outerLatch (BitVec.ofNat w o) i ψ s) [] (.exited i ψ s) := by
  refine .next ?_ (.refl _)
  rw [exitStep, if_neg]
  rw [add_ult_iff hNw]
  omega

/-- The values of the induction variable for which a log executes the body. -/
def bodies (log : List IterationEvent) : List ℕ :=
  log.filterMap fun
    | .enter => none
    | .body iv => some iv

@[simp]
theorem bodies_nil : bodies [] = [] := rfl

@[simp]
theorem bodies_enter (log : List IterationEvent) : bodies (.enter :: log) = bodies log := rfl

@[simp]
theorem bodies_body (iv : ℕ) (log : List IterationEvent) :
    bodies (.body iv :: log) = iv :: bodies log := rfl

@[simp]
theorem bodies_append (log log' : List IterationEvent) :
    bodies (log ++ log') = bodies log ++ bodies log' := List.filterMap_append

@[simp]
theorem bodies_map_body (ivs : List ℕ) : bodies (ivs.map .body) = ivs := by
  simp [bodies, List.filterMap_map]

theorem bodies_chunks (chunks : List (List ℕ)) :
    bodies (chunks.flatMap fun c => .enter :: c.map .body) = chunks.flatten := by
  induction chunks with
  | nil => rfl
  | cons c chunks ih => simp [ih]

/-- The full chunks make up the values below the next one. -/
private theorem flatten_full_chunks (K j : ℕ) :
    ((List.range j).map fun c => List.range' (c * K) K).flatten = List.range (j * K) := by
  induction j with
  | zero => simp
  | succ j ih =>
    have happend := List.range'_append_1 (s := 0) (m := j * K) (n := K)
    rw [Nat.zero_add] at happend
    rw [List.range_succ, List.map_append, List.flatten_append, ih, Nat.succ_mul]
    simpa [List.range_eq_range'] using happend

section Planned

variable {n : ℕ} (hbtc : L.BackedgeTaken n) (hmatch : L.matchExitRewriteForm N = true)
  (hN : N = if L.exitAtLatch then n + 1 else n) (hthree : 3 ≤ N) (hNw : N < 2 ^ w)
  (hret : L.IterationsReturn)
include hbtc hmatch hN hthree hNw hret

/-- **A chunk** with limit `l` executes the body from `outer.iv` up to `l`. -/
private theorem logs_chunk {o l : ℕ} (hol : o < l) (hle : l ≤ N)
    (hlimit : innerLimit N K (BitVec.ofNat w o) = BitVec.ofNat w l)
    (hp : L.exitCmp.stayPredicate ≠ .sgt ∨ l = N ∨ L.exitAtLatch = true ∧ l = o + 1) (ψ : Ψ)
    (s : ρ) :
    ∃ i' ψ' s', L.NestLogs N K (.outerHeader (BitVec.ofNat w o) ψ s)
      (.enter :: (List.range' o (l - o)).map .body) (.outerLatch (BitVec.ofNat w o) i' ψ' s') := by
  obtain ⟨hstay, hexit⟩ := stays_chunk hbtc hmatch hN hthree hlimit (by omega) hle
  have hlast : o ≤ L.lastOf l := by
    rw [lastOf]
    split_ifs <;> omega
  have hinner : ∀ j, o ≤ j → j < L.lastOf l → L.exitCmp.stays (BitVec.ofNat w j)
      (L.innerExitBound N K (BitVec.ofNat w o)) = true := by
    intro j hj hjl
    rcases hp with hp | hp | ⟨hlatch, rfl⟩
    · exact hstay (.inl hp) j hjl
    · exact hstay (.inr hp) j hjl
    · rw [lastOf, if_pos hlatch] at hjl
      omega
  obtain ⟨i', ψ', s', hlogs⟩ := logs_inner hret (by omega) (by omega) hlast hinner hexit ψ s
  exact ⟨i', ψ', s', .next rfl hlogs⟩

/-- **Full chunks.** As long as the next chunk starts below `N`, all chunks have run `K` values
each. -/
private theorem logs_full_chunks
    (hp : L.exitCmp.stayPredicate ≠ .sgt ∨ N ≤ K ∨ L.exitAtLatch = true ∧ K = 1) (hK : 0 < K)
    (ψ : Ψ) (s : ρ) {j : ℕ} (hj : j * K < N) :
    ∃ ψ' s', L.NestLogs N K (.outerHeader 0 ψ s)
      (((List.range j).map fun c => List.range' (c * K) K).flatMap fun c => .enter :: c.map .body)
      (.outerHeader (BitVec.ofNat w (j * K)) ψ' s') := by
  induction j with
  | zero =>
    refine ⟨ψ, s, ?_⟩
    rw [Nat.zero_mul]
    exact .refl _
  | succ j ih =>
    rw [Nat.succ_mul] at hj
    obtain ⟨ψ₁, s₁, hbefore⟩ := ih (by omega)
    have hlimit := innerLimit_ofNat (w := w) (N := N) (K := K) hNw (o := j * K) (by omega)
    rw [min_eq_left hj.le] at hlimit
    obtain ⟨i, ψ₂, s₂, hchunk⟩ := logs_chunk hbtc hmatch hN hthree hNw hret (K := K) (o := j * K)
      (l := j * K + K) (by omega) hj.le hlimit
      (hp.imp_right fun h => .inr ⟨(h.resolve_left (by omega)).1, by omega⟩) ψ₁ s₁
    have hmod : (j * K + K) % 2 ^ w = j * K + K := Nat.mod_eq_of_lt (by omega)
    have hnext := logs_outerLatch_next (L := L) hNw (o := j * K) (K := K) (by omega) i ψ₂ s₂
    rw [hmod] at hnext
    refine ⟨L.forward i ψ₂ s₂, s₂, ?_⟩
    have hall := hbefore.trans (hchunk.trans hnext)
    rw [List.range_succ, List.map_append, List.flatMap_append, Nat.succ_mul]
    simpa using hall

/-- **The iteration space is kept** if no chunk wraps around and every chunk runs up to its
limit. -/
private theorem keepsIterations_of_fits
    (hp : L.exitCmp.stayPredicate ≠ .sgt ∨ N ≤ K ∨ L.exitAtLatch = true ∧ K = 1) (hK : 0 < K)
    (hwrap : (N + K - 1) / K * K < 2 ^ w) (ψ : Ψ) (s : ρ) : L.KeepsIterations N K ψ s := by
  -- the last chunk starts at `j * K`
  set j := (N - 1) / K
  have hlow : j * K ≤ N - 1 := Nat.div_mul_le_self _ _
  have hhigh : N - 1 < j * K + K := Nat.lt_div_mul_add hK
  have hceil : (N + K - 1) / K * K = j * K + K := by
    rw [show N + K - 1 = N - 1 + K by omega, Nat.add_div_right _ hK, Nat.succ_mul]
  obtain ⟨ψ₁, s₁, hbefore⟩ :=
    logs_full_chunks hbtc hmatch hN hthree hNw hret hp hK ψ s (j := j) (by omega)
  have hlimit := innerLimit_ofNat (w := w) (N := N) (K := K) hNw (o := j * K) (by omega)
  rw [min_eq_right (by omega)] at hlimit
  obtain ⟨i, ψ₂, s₂, hchunk⟩ := logs_chunk hbtc hmatch hN hthree hNw hret (by omega) le_rfl hlimit
    (.inr (.inl rfl)) ψ₁ s₁
  have hexit := logs_outerLatch_exit (L := L) hNw (o := j * K) (K := K)
    (by rw [Nat.mod_eq_of_lt (by omega)]; omega) i ψ₂ s₂
  refine ⟨(List.range j).map (fun c => List.range' (c * K) K) ++ [List.range' (j * K) (N - j * K)],
    i, ψ₂, s₂, ?_, ?_, ?_⟩
  · rw [List.flatMap_append]
    simpa using hbefore.trans (hchunk.trans hexit)
  · have happend := List.range'_append_1 (s := 0) (m := j * K) (n := N - j * K)
    rw [Nat.zero_add, Nat.add_sub_cancel' (by omega)] at happend
    rw [List.flatten_append, flatten_full_chunks]
    simpa [List.range_eq_range'] using happend
  · intro c hc
    rcases List.mem_append.mp hc with hc | hc
    · obtain ⟨c', -, rfl⟩ := List.mem_map.mp hc
      simp
    · obtain rfl := List.mem_singleton.mp hc
      simp only [List.length_range']
      omega

/-! ### Chunks that go wrong -/

omit hbtc hmatch hN hthree hNw hret in
/-- A run to the end continues every other run. -/
private theorem logs_rest {c d : ExitConfig w β Ψ ρ} {log log' : List IterationEvent} {i : BitVec w}
    {ψ : Ψ} {s : ρ} (h : L.NestLogs N K c log d) (h' : L.NestLogs N K c log' (.exited i ψ s)) :
    ∃ rest, L.NestLogs N K d rest (.exited i ψ s) ∧ log' = log ++ rest :=
  h.to_final h' rfl rfl

omit hbtc hmatch hN hthree hNw hret in
/-- The inner loop is left through `outer.latch`. -/
private theorem logs_to_outerLatch {c : ExitConfig w β Ψ ρ} {log : List IterationEvent}
    {iₑ : BitVec w} {ψₑ : Ψ} {sₑ : ρ} (h : L.NestLogs N K c log (.exited iₑ ψₑ sₑ))
    {o i : BitVec w} {b : β} {ψ : Ψ} {s : ρ} (hc : c = .block o b i ψ s) :
    ∃ log₁ log₂ i' ψ' s', log = log₁ ++ log₂ ∧
      L.NestLogs N K (.outerLatch o i' ψ' s') log₂ (.exited iₑ ψₑ sₑ) := by
  generalize hend : ExitConfig.exited iₑ ψₑ sₑ = d at h
  induction h generalizing i b ψ s with
  | refl c =>
    rw [← hend] at hc
    cases hc
  | @step c d log hlogs ih =>
    subst hc
    rcases L.exitStep_cases (N := N) (K := K) o b i ψ s with
      ⟨b', s', -, -, hstep⟩ | ⟨ψ', s', -, -, hstep⟩ | ⟨s', -, -, hstep⟩
    · obtain ⟨log₁, log₂, i', ψ', s', rfl, hrest⟩ := ih hstep hend
      exact ⟨_ ++ log₁, log₂, i', ψ', s', (List.append_assoc _ _ _).symm, hrest⟩
    · obtain ⟨log₁, log₂, i', ψ', s', rfl, hrest⟩ := ih hstep hend
      exact ⟨_ ++ log₁, log₂, i', ψ', s', (List.append_assoc _ _ _).symm, hrest⟩
    · rw [hstep] at hlogs
      exact ⟨_, log, i, ψ, s', rfl, hend ▸ hlogs⟩

omit hbtc hmatch hN hthree in
/-- A chunk that executes the body starts with the value of `outer.iv`. -/
private theorem bodies_start {o : ℕ} (ho : o < N)
    (hbody : L.exitAtLatch = true ∨ L.exitCmp.stays (BitVec.ofNat w o)
      (L.innerExitBound N K (BitVec.ofNat w o)) = true)
    {ψ : Ψ} {s : ρ} {log : List IterationEvent} {iₑ : BitVec w} {ψₑ : Ψ} {sₑ : ρ}
    (h : L.NestLogs N K (.outerHeader (BitVec.ofNat w o) ψ s) log (.exited iₑ ψₑ sₑ)) :
    ∃ rest, bodies log = o :: rest := by
  obtain ⟨d, hlogs, -⟩ := logs_iteration hbody hret ψ s
  have hstart : L.NestLogs N K (.outerHeader (BitVec.ofNat w o) ψ s) _ d := .next rfl hlogs
  obtain ⟨rest, -, rfl⟩ := logs_rest hstart h
  refine ⟨bodies rest, ?_⟩
  simp [observe, Nat.mod_eq_of_lt (ho.trans hNw)]

/-- **Starting over.** A run from a chunk start below `N` executes the body for a value up to that
start, even if the chunks after it wrap around again. -/
private theorem exists_body_le (hp : L.exitCmp.stayPredicate ≠ .sgt) (hK : 0 < K) (hKw : K < 2 ^ w)
    {o : ℕ} (ho : o < N) {ψ : Ψ} {s : ρ} {log : List IterationEvent} {iₑ : BitVec w} {ψₑ : Ψ}
    {sₑ : ρ} (h : L.NestLogs N K (.outerHeader (BitVec.ofNat w o) ψ s) log (.exited iₑ ψₑ sₑ)) :
    ∃ x ∈ bodies log, x ≤ o := by
  induction o using Nat.strong_induction_on generalizing ψ s log with
  | _ o ih =>
    by_cases hbody : L.exitAtLatch = true ∨ L.exitCmp.stays (BitVec.ofNat w o)
        (L.innerExitBound N K (BitVec.ofNat w o)) = true
    · obtain ⟨rest, hrest⟩ := bodies_start hNw hret ho hbody h
      exact ⟨o, by simp [hrest], le_rfl⟩
    · obtain ⟨hlatch, hstays⟩ := not_or.mp hbody
      rw [Bool.not_eq_true] at hlatch hstays
      -- a chunk that does not execute the body has a limit that wrapped around
      have hwrap : 2 ^ w ≤ o + K := by
        by_contra hlt
        have hlimit := innerLimit_ofNat (K := K) hNw (o := o) (by omega)
        have hstay := (stays_chunk hbtc hmatch hN hthree hlimit (by omega) (by omega)).1 (.inl hp) o
          (by rw [lastOf, hlatch]; simp; omega)
        rw [hstays] at hstay
        exact absurd hstay (by simp)
      have hmod : (o + K) % 2 ^ w = o + K - 2 ^ w := by
        rw [Nat.mod_eq_sub_mod hwrap, Nat.mod_eq_of_lt (by omega)]
      obtain ⟨s', hleave⟩ := logs_leave hlatch hstays ψ s
      have hnext := hleave.trans (logs_outerLatch_next hNw (by omega) _ ψ s')
      have hstart : L.NestLogs N K (.outerHeader (BitVec.ofNat w o) ψ s) _ _ := .next rfl hnext
      obtain ⟨rest, hrest, rfl⟩ := logs_rest hstart h
      obtain ⟨x, hx, hle⟩ := ih _ (by omega) (by omega) hrest
      exact ⟨x, by simp [hx], by omega⟩

/-- **A chunk that wraps around** breaks the iteration space. -/
private theorem not_keepsIterations_of_wrap (hp : L.exitCmp.stayPredicate ≠ .sgt) (hK : 0 < K)
    (hKw : K < 2 ^ w) (hwrap : 2 ^ w ≤ (N + K - 1) / K * K) (ψ : Ψ) (s : ρ) :
    ¬L.KeepsIterations N K ψ s := by
  rintro ⟨chunks, iₑ, ψₑ, sₑ, hlogs, hflat, -⟩
  have hbodies := bodies_chunks chunks
  rw [hflat] at hbodies
  -- the last chunk starts at `j * K`
  set j := (N - 1) / K
  have hlow : j * K ≤ N - 1 := Nat.div_mul_le_self _ _
  have hceil : (N + K - 1) / K * K = j * K + K := by
    rw [show N + K - 1 = N - 1 + K by omega, Nat.add_div_right _ hK, Nat.succ_mul]
  have hmod : (j * K + K) % 2 ^ w = j * K + K - 2 ^ w := by
    rw [Nat.mod_eq_sub_mod (by omega), Nat.mod_eq_of_lt (by omega)]
  obtain ⟨ψ₁, s₁, hbefore⟩ :=
    logs_full_chunks hbtc hmatch hN hthree hNw hret (.inl hp) hK ψ s (j := j) (by omega)
  obtain ⟨rest, hrest, heq⟩ := logs_rest hbefore hlogs
  rw [heq, bodies_append, bodies_chunks, flatten_full_chunks] at hbodies
  -- after it, the outer loop goes on with a value below
  obtain ⟨rest₁, hblock, rfl⟩ := logs_rest (.single rfl) hrest
  obtain ⟨log₁, log₂, i, ψ₂, s₂, rfl, hlatch⟩ := logs_to_outerLatch hblock rfl
  obtain ⟨rest₂, hagain, rfl⟩ := logs_rest (logs_outerLatch_next hNw (by omega) i ψ₂ s₂) hlatch
  obtain ⟨x, hx, hle⟩ := exists_body_le hbtc hmatch hN hthree hNw hret hp hK hKw (by omega) hagain
  have hdisjoint := (List.nodup_append.mp (hbodies ▸ List.nodup_range)).2.2
  refine hdisjoint x (List.mem_range.mpr (by omega)) x ?_ rfl
  simp [hx]

section SignedGreater

variable (hsgt : L.exitCmp.stayPredicate = .sgt) (hKN : K < N)
include hsgt hKN

omit hret hKN in
/-- A signed-greater test fails at the start of a chunk that is not the last one. -/
private theorem stays_start_sgt {o : ℕ} (hK : 0 < K) (hlt : o + K < N) :
    L.exitCmp.stays (BitVec.ofNat w o) (L.innerExitBound N K (BitVec.ofNat w o)) = false := by
  have hlimit := innerLimit_ofNat (w := w) (K := K) hNw (o := o) (by omega)
  rw [min_eq_left hlt.le] at hlimit
  exact (stays_sgt hbtc hmatch hN hthree hsgt).2 o _ hlimit (by omega) hlt

/-- With the exit at the header, the chunks before the last one execute nothing. -/
private theorem bodies_ge_of_sgt (hlatch : L.exitAtLatch = false) (hK : 0 < K) {o : ℕ} (ho : o < N)
    {ψ : Ψ} {s : ρ} {log : List IterationEvent} {iₑ : BitVec w} {ψₑ : Ψ} {sₑ : ρ}
    (h : L.NestLogs N K (.outerHeader (BitVec.ofNat w o) ψ s) log (.exited iₑ ψₑ sₑ)) :
    ∃ x rest, bodies log = x :: rest ∧ o ≤ x := by
  have hhalf := (stays_sgt hbtc hmatch hN hthree (K := K) hsgt).1 hlatch
  obtain ⟨d, hd⟩ : ∃ d, N = o + d := ⟨N - o, by omega⟩
  induction d using Nat.strong_induction_on generalizing o ψ s log with
  | _ d ih =>
    by_cases hlt : o + K < N
    · have hstays := stays_start_sgt hbtc hmatch hN hthree hNw hsgt hK hlt
      have hmod : (o + K) % 2 ^ w = o + K := Nat.mod_eq_of_lt (by omega)
      obtain ⟨s', hleave⟩ := logs_leave hlatch hstays ψ s
      have hnext := hleave.trans (logs_outerLatch_next hNw (by omega) _ ψ s')
      have hstart : L.NestLogs N K (.outerHeader (BitVec.ofNat w o) ψ s) _ _ := .next rfl hnext
      obtain ⟨rest, hrest, rfl⟩ := logs_rest hstart h
      rw [hmod] at hrest
      obtain ⟨x, tail, hx, hge⟩ := ih (d - K) (by omega) hlt hrest (by omega)
      exact ⟨x, tail, by simpa [observe] using hx, by omega⟩
    · -- the last chunk has the limit `N`, for which the test works
      have hlimit := innerLimit_ofNat (w := w) (K := K) hNw (o := o) (by omega)
      rw [min_eq_right (by omega)] at hlimit
      have hstay := (stays_chunk hbtc hmatch hN hthree hlimit (by omega) le_rfl).1 (.inr rfl) o
        (by rw [lastOf, hlatch]; simpa using ho)
      obtain ⟨rest, hrest⟩ := bodies_start hNw hret ho (.inr hstay) h
      exact ⟨o, rest, hrest, le_rfl⟩

/-- **Signed greater** breaks the iteration space if there is more than one chunk, except with one
iteration a chunk and the exit at the latch. -/
private theorem not_keepsIterations_of_sgt (hK : 0 < K) (hone : L.exitAtLatch = true → 1 < K)
    (ψ : Ψ)
    (s : ρ) : ¬L.KeepsIterations N K ψ s := by
  rintro ⟨chunks, iₑ, ψₑ, sₑ, hlogs, hflat, -⟩
  have hbodies := bodies_chunks chunks
  rw [hflat] at hbodies
  have hstays := stays_start_sgt hbtc hmatch hN hthree hNw hsgt hK (o := 0) (by omega)
  have hmod : (0 + K) % 2 ^ w = K := by
    rw [Nat.zero_add, Nat.mod_eq_of_lt (by omega)]
  obtain ⟨rest₀, hblock, heq⟩ := logs_rest (.single rfl) hlogs
  rw [heq] at hbodies
  have hnext := fun i ψ s => logs_outerLatch_next (L := L) (K := K) hNw (o := 0) (by omega) i ψ s
  rw [hmod] at hnext
  cases hlatch : L.exitAtLatch with
  | true =>
    -- the first chunk executes the body once, the second one starts at `K`
    obtain ⟨d, hiter, hend⟩ := logs_iteration (.inl hlatch) hret ψ s
    rcases hend with ⟨hstay, -⟩ | ⟨-, ψ', s', rfl⟩
    · rw [hstays] at hstay
      exact absurd hstay (by simp)
    · obtain ⟨rest₁, hsecond, rfl⟩ := logs_rest (hiter.trans (hnext _ ψ' s')) hblock
      obtain ⟨rest₂, htwo⟩ := bodies_start hNw hret hKN (.inl hlatch) hsecond
      have hget := congrArg (fun l => l[1]?) hbodies
      simp [observe, htwo, show 1 < N by omega] at hget
      have := hone hlatch
      omega
  | false =>
    -- the first chunk executes nothing, and later ones no value below `K`
    obtain ⟨s', hleave⟩ := logs_leave hlatch hstays ψ s
    obtain ⟨rest₁, hsecond, rfl⟩ := logs_rest (hleave.trans (hnext _ ψ s')) hblock
    obtain ⟨x, tail, hx, hge⟩ :=
      bodies_ge_of_sgt hbtc hmatch hN hthree hNw hret hsgt hKN hlatch hK hKN hsecond
    have hget := congrArg (fun l => l[0]?) hbodies
    simp [observe, hx, show 0 < N by omega] at hget
    omega

end SignedGreater

end Planned

end ExitLoop

/-! ### The theorem -/

/-- **When strip mining keeps the iteration space.** For a loop of `N` iterations with an accepted
exit, a planned chunk size `K` and any chunk size `k` in the code, `K` itself or a re-clamped one,
the nest executes the body for `0, 1, ..., N - 1` in chunks of at most `k` if and only if

* `N` rounded up to a multiple of `k` fits the induction variable, and
* the loop does not go on by a signed-greater test, unless one chunk covers it or every chunk is a
  single iteration that leaves from the latch.

Scalar evolution is assumed to be right, and the loops inside the body to terminate. -/
theorem strip_mined_keeps_iterations_iff {w : ℕ} {β Ψ ρ : Type*} [DecidableEq β]
    (L : ExitLoop w β Ψ ρ) {n N K k : ℕ} (hbtc : L.BackedgeTaken n)
    (hN : N = if L.exitAtLatch then n + 1 else n) (hmatch : L.matchExitRewriteForm N = true)
    (hK : 2 ≤ K) (hKN : K < N) (hNw : N < 2 ^ w) (hk : 1 ≤ k) (hkw : k < 2 ^ w)
    (hret : L.IterationsReturn) (ψ : Ψ) (s : ρ) :
    L.KeepsIterations N k ψ s ↔ (N + k - 1) / k * k < 2 ^ w ∧
      ¬(L.exitCmp.stayPredicate = .sgt ∧ k < N ∧ (L.exitAtLatch = true → 1 < k)) := by
  have hthree : 3 ≤ N := by omega
  refine ⟨fun hkeeps => ?_, fun ⟨hwrap, hsgt⟩ => ?_⟩
  · have hsgt : ¬(L.exitCmp.stayPredicate = .sgt ∧ k < N ∧ (L.exitAtLatch = true → 1 < k)) :=
      fun ⟨hp, hkN, hone⟩ => ExitLoop.not_keepsIterations_of_sgt hbtc hmatch hN hthree hNw hret hp
        hkN hk hone ψ s hkeeps
    refine ⟨?_, hsgt⟩
    by_contra hwrap
    rw [not_lt] at hwrap
    refine ExitLoop.not_keepsIterations_of_wrap hbtc hmatch hN hthree hNw hret (fun hp => ?_) hk hkw
      hwrap ψ s hkeeps
    -- a signed-greater test that is not excluded belongs to chunks that do not wrap around
    have hceil : (N + k - 1) / k * k ≤ N + k - 1 := Nat.div_mul_le_self _ _
    refine hsgt ⟨hp, ?_, fun _ => ?_⟩
    · by_contra hge
      have hone : (N + k - 1) / k = 1 := by
        refine Nat.div_eq_of_lt_le ?_ ?_ <;> omega
      rw [hone] at hwrap
      omega
    · omega
  · refine ExitLoop.keepsIterations_of_fits hbtc hmatch hN hthree hNw hret ?_ hk hwrap ψ s
    by_cases hp : L.exitCmp.stayPredicate = .sgt
    · by_cases hkN : k < N
      · have hone : ¬(L.exitAtLatch = true → 1 < k) := fun h => hsgt ⟨hp, hkN, h⟩
        obtain ⟨hlatch, hle⟩ := Classical.not_imp.mp hone
        exact .inr (.inr ⟨hlatch, by omega⟩)
      · exact .inr (.inl (by omega))
    · exact .inl hp

/-- The counting loop's iterations return to the header. -/
private theorem countingLoop_iterationsReturn (exitAtLatch : Bool) (N : ℕ) :
    (countingLoop exitAtLatch N).IterationsReturn := by
  intro i ψ s
  refine ⟨1, ?_⟩
  cases exitAtLatch <;> rfl

/-- **The nest starts over.** A latch-exiting loop of `255` iterations with an 8 bit variable and
chunk size `128` is accepted, but `outer.iv` wraps around after its second chunk. -/
theorem strip_mined_starts_over :
    (countingLoop true 255).BackedgeTaken 254 ∧
      (countingLoop true 255).tryStripMiningPlan (some 254) 128 = some ⟨255, 128⟩ ∧
      (countingLoop true 255).IterationsReturn ∧
      ¬(countingLoop true 255).KeepsIterations 255 128 () () := by
  have hbtc : (countingLoop true 255).BackedgeTaken 254 := by decide +kernel
  have hret := countingLoop_iterationsReturn true 255
  refine ⟨hbtc, by decide, hret, ?_⟩
  exact ExitLoop.not_keepsIterations_of_wrap hbtc (by decide) (by decide) (by decide) (by decide)
    hret
    (by decide) (by decide) (by decide) (by decide) () ()

/-- The same loop keeps its iterations with chunk size `17`, which divides `255`. -/
theorem strip_mined_keeps_iterations_seventeen :
    (countingLoop true 255).KeepsIterations 255 17 () () :=
  (strip_mined_keeps_iterations_iff (countingLoop true 255) (n := 254) (K := 128)
    (by decide +kernel)
    (by decide) (by decide) (by decide) (by decide) (by decide) (by decide) (by decide)
    (countingLoop_iterationsReturn true 255) () ()).mpr (by decide)

end Bao.Milp
