import Mathlib

/-!
# Logs of deterministic runs

A deterministic machine is a step function `f` on configurations, and `observe` says what is seen of
a configuration. `Logs f observe c log d` says that the run from `c` comes to `d` and that `log` is
what is seen on the way, `d` itself excluded.

Two runs from one configuration agree as far as both go. If the second one has come to a halt, the
first one can be continued to the same halt and its log is a prefix (`Logs.to_final`).
-/

namespace Bao.Machine

variable {α ε : Type*} {f : α → α} {observe : α → Option ε}

/-- **A run with its log.** -/
inductive Logs (f : α → α) (observe : α → Option ε) : α → List ε → α → Prop
  | refl (c : α) : Logs f observe c [] c
  | step {c d : α} {log : List ε} (h : Logs f observe (f c) log d) :
      Logs f observe c ((observe c).toList ++ log) d

/-- One run after the other. -/
theorem Logs.trans {c d e : α} {log log' : List ε} (h : Logs f observe c log d)
    (h' : Logs f observe d log' e) : Logs f observe c (log ++ log') e := by
  induction h with
  | refl c => exact h'
  | step _ ih =>
    rw [List.append_assoc]
    exact .step (ih h')

/-- A step to a known configuration. -/
theorem Logs.next {c c' d : α} {log : List ε} (hstep : f c = c') (h : Logs f observe c' log d) :
    Logs f observe c ((observe c).toList ++ log) d :=
  .step (hstep ▸ h)

/-- One step. -/
theorem Logs.single {c d : α} (hstep : f c = d) : Logs f observe c (observe c).toList d := by
  rw [← List.append_nil (observe c).toList]
  exact .next hstep (.refl d)

/-- **Determinism.** A run that comes to a halt continues every other run from the same
configuration. -/
theorem Logs.to_final {c d e : α} {log log' : List ε} (h : Logs f observe c log d)
    (h' : Logs f observe c log' e) (hfinal : f e = e) (hquiet : observe e = none) :
    ∃ rest, Logs f observe d rest e ∧ log' = log ++ rest := by
  induction h generalizing log' with
  | refl c => exact ⟨log', h', rfl⟩
  | @step c d log hd ih =>
    cases h' with
    | refl =>
      -- the second run has halted at once, so the first one stands still
      have hstill : Logs f observe (f e) [] e := by
        rw [hfinal]
        exact .refl e
      obtain ⟨rest, hrest, heq⟩ := ih hstill
      obtain ⟨rfl, rfl⟩ := List.append_eq_nil_iff.mp heq.symm
      exact ⟨[], hrest, by simp [hquiet]⟩
    | step h'' =>
      obtain ⟨rest, hrest, rfl⟩ := ih h''
      exact ⟨rest, hrest, (List.append_assoc _ _ _).symm⟩

/-! ### Stuttering -/

section Stuttering

variable {γ : Type*} {g : γ → γ} {abs : γ → α} {visible : γ → Bool} {rank : γ → ℕ}

/-- **A stuttering machine.** The machine `g` does what `f` does, with silent steps in between:
`abs d` is the configuration of `f` that `d` stands for, a visible configuration makes its step,
and a silent one stands for the same configuration afterwards. Ranks exclude endless silence. -/
structure Stutters (f : α → α) (g : γ → γ) (abs : γ → α) (visible : γ → Bool) (rank : γ → ℕ) :
    Prop where
  visible_step : ∀ d, visible d = true → abs (g d) = f (abs d)
  silent_step : ∀ d, visible d = false → abs (g d) = abs d ∧ rank (g d) < rank d

/-- What is seen of a stuttering machine: the configurations its visible ones stand for. -/
def seen (abs : γ → α) (visible : γ → Bool) (d : γ) : Option α :=
  if visible d then some (abs d) else none

/-- Whatever a stuttering machine shows is a run of the machine it follows. -/
theorem Stutters.log_eq (h : Stutters f g abs visible rank) {d e : γ} {log : List α}
    (hlog : Logs g (seen abs visible) d log e) :
    log = List.iterate f (abs d) log.length ∧ abs e = f^[log.length] (abs d) := by
  induction hlog with
  | refl d => exact ⟨rfl, rfl⟩
  | @step d e log _ ih =>
    obtain ⟨hlog, he⟩ := ih
    cases hd : visible d with
    | true =>
      rw [h.visible_step d hd] at hlog he
      rw [seen, if_pos hd, Option.toList_some, List.singleton_append, List.length_cons,
        List.iterate, ← hlog, Function.iterate_succ_apply]
      exact ⟨rfl, he⟩
    | false =>
      rw [(h.silent_step d hd).1] at hlog he
      rw [seen, if_neg (by simp [hd]), Option.toList_none, List.nil_append]
      exact ⟨hlog, he⟩

/-- A stuttering machine shows as much of the run as one likes. -/
theorem Stutters.exists_log (h : Stutters f g abs visible rank) (n : ℕ) (d : γ) :
    ∃ e, Logs g (seen abs visible) d (List.iterate f (abs d) n) e := by
  induction n generalizing d with
  | zero => exact ⟨d, .refl d⟩
  | succ n ihn =>
    -- the next visible configuration comes after finitely many silent ones
    induction hrank : rank d using Nat.strong_induction_on generalizing d with
    | _ r ih =>
      cases hd : visible d with
      | true =>
        obtain ⟨e, he⟩ := ihn (g d)
        rw [h.visible_step d hd] at he
        exact ⟨e, by simpa [seen, hd, List.iterate] using Logs.step he⟩
      | false =>
        obtain ⟨heq, hlt⟩ := h.silent_step d hd
        obtain ⟨e, he⟩ := ih _ (hrank ▸ hlt) (g d) rfl
        rw [heq] at he
        exact ⟨e, by simpa [seen, hd] using Logs.step he⟩

/-- **A stuttering machine shows the same run.** Its logs are the initial parts of the run of the
machine it follows, and it shows all of them. -/
theorem Stutters.logs_iff (h : Stutters f g abs visible rank) {d : γ} {log : List α} :
    (∃ e, Logs g (seen abs visible) d log e) ↔ ∃ n, log = List.iterate f (abs d) n := by
  constructor
  · rintro ⟨e, he⟩
    exact ⟨log.length, (h.log_eq he).1⟩
  · rintro ⟨n, rfl⟩
    exact h.exists_log n d

end Stuttering

end Bao.Machine
