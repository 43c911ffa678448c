import Mathlib

/-!
# Counting visits in deterministic runs

A deterministic machine is a step function `f` on configurations. `visits f p stop n c` counts
the configurations with `p` among the first `n` of the run from `c`, up to the first one with
`stop`.

An upper bound is proved with a **ranking relation** (`visits_le`): `Rank c r` says that at most
`r` visits remain from `c` on, and every step uses up the visit it makes. The relation may
forget part of the rank, and it may carry an invariant of the run.
-/

namespace Bao.Machine

variable {α : Type*} {f : α → α} {p stop : α → Bool}

/-- The number of configurations with `p` among the first `n` of the run from `c`, up to the
first one with `stop`. -/
def visits (f : α → α) (p stop : α → Bool) : ℕ → α → ℕ
  | 0, _ => 0
  | n + 1, c => if stop c then 0 else (if p c then 1 else 0) + visits f p stop n (f c)

/-- The visits of a run without a stop: the first configuration, then the rest. -/
theorem visits_succ (n : ℕ) (c : α) :
    visits f p (fun _ => false) (n + 1) c =
      (if p c then 1 else 0) + visits f p (fun _ => false) n (f c) := by
  simp [visits]

/-- **Ranking rule.** If every step uses up the visit it makes, the rank bounds the visits. -/
theorem visits_le (Rank : α → ℕ → Prop)
    (hstep : ∀ c r, Rank c r → stop c = false →
      ∃ r', Rank (f c) r' ∧ (if p c then 1 else 0) + r' ≤ r)
    (n : ℕ) {c : α} {r : ℕ} (hrank : Rank c r) : visits f p stop n c ≤ r := by
  induction n generalizing c r with
  | zero => exact Nat.zero_le r
  | succ n ih =>
    rw [visits]
    cases hc : stop c with
    | true => exact Nat.zero_le r
    | false =>
      obtain ⟨r', hnext, hle⟩ := hstep c r hrank hc
      have hrest := ih hnext
      simp only [Bool.false_eq_true, if_false]
      omega

end Bao.Machine
