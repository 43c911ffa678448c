import Mathlib

/-!
# Programs with side effects

A program here is a deterministic machine whose steps perform side effects and that may leave with
a value. Two configurations show the same behaviour if every initial sequence of side effects of
one is one of the other, and if they leave with the same values. A run that never leaves has a
behaviour as well: all that it performs.

Two programs are compared step by step (`sameBehaviour_of_follows`): every step of one is followed
by some steps of the other that perform the same in total and lead to related configurations again.
-/

namespace Bao.Machine

/-- **A program with side effects**: configurations `α`, side effects `ε`, and the values `υ` it may
leave with. -/
structure EffectProgram (α ε υ : Type*) where
  step : α → α
  /-- What the step from a configuration performs. -/
  effects : α → List ε
  /-- The value a configuration has left with. -/
  result : α → Option υ
  step_of_result : ∀ {c v}, result c = some v → step c = c
  effects_of_result : ∀ {c v}, result c = some v → effects c = []

namespace EffectProgram

variable {α γ ε υ : Type*} (P : EffectProgram α ε υ)

/-- The side effects of the first `n` steps. -/
def performed : α → ℕ → List ε
  | _, 0 => []
  | c, n + 1 => P.effects c ++ performed (P.step c) n

/-- A sequence of side effects the run from `c` begins with. -/
def Performs (c : α) (es : List ε) : Prop := ∃ n, es <+: P.performed c n

/-- The run from `c` leaves with the value `v`. -/
def Returns (c : α) (v : υ) : Prop := ∃ n, P.result (P.step^[n] c) = some v

theorem performed_add (c : α) (m n : ℕ) :
    P.performed c (m + n) = P.performed c m ++ P.performed (P.step^[m] c) n := by
  induction m generalizing c with
  | zero => rw [Nat.zero_add, performed, List.nil_append, Function.iterate_zero_apply]
  | succ m ih =>
    rw [Nat.succ_add, performed, performed, ih, List.append_assoc, Function.iterate_succ_apply]

/-- A longer run performs what a shorter one does, and more. -/
theorem performed_prefix (c : α) {m n : ℕ} (h : m ≤ n) : P.performed c m <+: P.performed c n := by
  obtain ⟨k, rfl⟩ := Nat.exists_eq_add_of_le h
  rw [performed_add]
  exact List.prefix_append _ _

variable {P} in
/-- A program that has left stays where it is. -/
theorem result_of_le {c : α} {v : υ} {m n : ℕ} (h : P.result (P.step^[m] c) = some v)
    (hle : m ≤ n) :
    P.result (P.step^[n] c) = some v := by
  induction n, hle using Nat.le_induction with
  | base => exact h
  | succ n _ ih => rwa [Function.iterate_succ_apply', P.step_of_result ih]

variable {P} in
/-- A run leaves with one value. -/
theorem Returns.unique {c : α} {v v' : υ} (h : P.Returns c v) (h' : P.Returns c v') : v = v' := by
  obtain ⟨m, hm⟩ := h
  obtain ⟨n, hn⟩ := h'
  have hm' := result_of_le hm (Nat.le_max_left m n)
  exact Option.some.inj (hm'.symm.trans (result_of_le hn (Nat.le_max_right m n)))

/-- **The same behaviour**: the same sequences of side effects and the same values. -/
structure SameBehaviour (P : EffectProgram α ε υ) (Q : EffectProgram γ ε υ) (c : α) (d : γ) :
    Prop where
  performs_iff : ∀ es, P.Performs c es ↔ Q.Performs d es
  returns_iff : ∀ v, P.Returns c v ↔ Q.Returns d v

theorem SameBehaviour.refl (c : α) : SameBehaviour P P c c := ⟨fun _ => Iff.rfl, fun _ => Iff.rfl⟩

theorem SameBehaviour.trans {δ : Type*} {P : EffectProgram α ε υ} {Q : EffectProgram γ ε υ}
    {R : EffectProgram δ ε υ} {c : α} {d : γ} {e : δ} (h₁ : SameBehaviour P Q c d)
    (h₂ : SameBehaviour Q R d e) : SameBehaviour P R c e :=
  ⟨fun es => (h₁.performs_iff es).trans (h₂.performs_iff es),
    fun v => (h₁.returns_iff v).trans (h₂.returns_iff v)⟩

/-! ### Comparison of programs -/

section Follows

variable {P} {Q : EffectProgram γ ε υ} {R : α → γ → Prop}

/-- The other program makes at least as many steps. -/
private theorem exists_follow
    (hstep : ∀ c d, R c d → ∃ n, 0 < n ∧ P.effects c = Q.performed d n ∧
      R (P.step c) (Q.step^[n] d))
    {c : α} {d : γ} (h : R c d) (k : ℕ) :
    ∃ n, k ≤ n ∧ P.performed c k = Q.performed d n ∧ R (P.step^[k] c) (Q.step^[n] d) := by
  induction k generalizing c d with
  | zero => exact ⟨0, le_rfl, rfl, h⟩
  | succ k ih =>
    obtain ⟨m, hpos, heffects, hrel⟩ := hstep c d h
    obtain ⟨n, hle, heq, hrel'⟩ := ih hrel
    refine ⟨m + n, by omega, ?_, ?_⟩
    · rw [performed, performed_add, heffects, heq]
    · rwa [Function.iterate_succ_apply, Nat.add_comm, Function.iterate_add_apply]

/-- **Step by step.** If every step of a program is followed by steps of another one that perform
the same and keep the two related, and related configurations have the same results, then the two
show the same behaviour. -/
theorem sameBehaviour_of_follows
    (hstep : ∀ c d, R c d → ∃ n, 0 < n ∧ P.effects c = Q.performed d n ∧
      R (P.step c) (Q.step^[n] d))
    (hresult : ∀ c d, R c d → P.result c = Q.result d) {c : α} {d : γ} (h : R c d) :
    SameBehaviour P Q c d := by
  refine ⟨fun es => ⟨?_, ?_⟩, fun v => ⟨?_, ?_⟩⟩
  · rintro ⟨k, hk⟩
    obtain ⟨n, -, heq, -⟩ := exists_follow hstep h k
    exact ⟨n, heq ▸ hk⟩
  · rintro ⟨k, hk⟩
    obtain ⟨n, hle, heq, -⟩ := exists_follow hstep h k
    exact ⟨k, heq ▸ hk.trans (Q.performed_prefix d hle)⟩
  · rintro ⟨k, hk⟩
    obtain ⟨n, -, -, hrel⟩ := exists_follow hstep h k
    exact ⟨n, (hresult _ _ hrel).symm.trans hk⟩
  · rintro ⟨k, hk⟩
    obtain ⟨n, hle, -, hrel⟩ := exists_follow hstep h k
    exact ⟨k, (hresult _ _ hrel).trans (result_of_le hk hle)⟩

end Follows

/-- A silent first step can be left out. -/
theorem SameBehaviour.of_silent {P : EffectProgram α ε υ} {Q : EffectProgram γ ε υ} {c : α} {d : γ}
    (hsilent : Q.effects d = []) (h : SameBehaviour P Q c (Q.step d)) : SameBehaviour P Q c d := by
  refine ⟨fun es => (h.performs_iff es).trans ⟨?_, ?_⟩, fun v => (h.returns_iff v).trans ⟨?_, ?_⟩⟩
  · rintro ⟨n, hn⟩
    refine ⟨n + 1, ?_⟩
    rwa [performed, hsilent, List.nil_append]
  · rintro ⟨n, hn⟩
    refine ⟨n, hn.trans ?_⟩
    have hle := Q.performed_prefix d (Nat.le_succ n)
    rwa [performed, hsilent, List.nil_append] at hle
  · rintro ⟨n, hn⟩
    exact ⟨n + 1, hn⟩
  · rintro ⟨n, hn⟩
    exact ⟨n, (result_of_le hn (Nat.le_succ n) :)⟩

/-! ### Runs that leave -/

variable {P} in
private theorem performed_of_result {c : α} {v : υ} (h : P.result c = some v) (n : ℕ) :
    P.performed c n = [] := by
  induction n with
  | zero => rfl
  | succ n ih => rw [performed, P.effects_of_result h, P.step_of_result h, ih, List.append_nil]

variable {P} in
/-- All that a run that leaves performs is what it performs before. -/
theorem performs_iff_of_result {c : α} {v : υ} {n : ℕ} (h : P.result (P.step^[n] c) = some v)
    (es : List ε) : P.Performs c es ↔ es <+: P.performed c n := by
  refine ⟨?_, fun hes => ⟨n, hes⟩⟩
  rintro ⟨k, hk⟩
  refine hk.trans ?_
  rcases le_total k n with hle | hle
  · exact P.performed_prefix c hle
  · obtain ⟨j, rfl⟩ := Nat.exists_eq_add_of_le hle
    rw [performed_add, performed_of_result h, List.append_nil]

end EffectProgram

end Bao.Machine
