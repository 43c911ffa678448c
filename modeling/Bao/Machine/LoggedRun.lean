import Mathlib.Order.Defs.Unbundled
import Mathlib.Data.List.Basic

/-!
# Runs of events with quiet changes in between

A system makes the events of interest (`step`) and, before each of them and after the last one,
changes that do not matter (`quiet`, a preorder). The log of a run has every event with the state it
starts from, so that a condition on the events of a run speaks of these states.

Runs compose (`LoggedReach.trans`), and what survives quiet changes and every event that meets a
condition holds in all states of a run whose events meet it (`LoggedRun.invariant`).
-/

namespace Bao.Machine

variable {S E : Type*}

/-- **A run** with its log: before each event, and after the last one, only quiet changes. -/
inductive LoggedRun (quiet : S → S → Prop) (step : S → E → S → Prop) :
    S → List (S × E) → S → Prop
  | done {s t : S} (h : quiet s t) : LoggedRun quiet step s [] t
  | step {s s' s'' t : S} {e : E} {log : List (S × E)} (h : quiet s s') (he : step s' e s'')
      (rest : LoggedRun quiet step s'' log t) : LoggedRun quiet step s ((s', e) :: log) t

/-- Some run leads from one state to the other. -/
def LoggedReach (quiet : S → S → Prop) (step : S → E → S → Prop) (s t : S) : Prop :=
  ∃ log, LoggedRun quiet step s log t

variable {quiet : S → S → Prop} {step : S → E → S → Prop} {s t u : S}

/-- **An invariant of a run** whose events meet a condition: it survives quiet changes and holds
after every event that meets the condition in a state with the invariant. -/
theorem LoggedRun.invariant {I : S → Prop} {C : S → E → Prop}
    (hquiet : ∀ s t, I s → quiet s t → I t) (hstep : ∀ s e t, I s → C s e → step s e t → I t)
    {log : List (S × E)} (hrun : LoggedRun quiet step s log t)
    (hlog : ∀ entry ∈ log, C entry.1 entry.2) (hs : I s) : I t ∧ ∀ entry ∈ log, I entry.1 := by
  induction hrun with
  | done h => exact ⟨hquiet _ _ hs h, by simp⟩
  | step h he _ ih =>
    obtain ⟨hfirst, hrest⟩ := List.forall_mem_cons.mp hlog
    have hbefore := hquiet _ _ hs h
    obtain ⟨ht, hentries⟩ := ih hrest (hstep _ _ _ hbefore hfirst he)
    exact ⟨ht, List.forall_mem_cons.mpr ⟨hbefore, hentries⟩⟩

namespace LoggedReach

/-- What survives quiet changes and all events. -/
theorem invariant {I : S → Prop} (hquiet : ∀ s t, I s → quiet s t → I t)
    (hstep : ∀ s e t, I s → step s e t → I t) (h : LoggedReach quiet step s t) (hs : I s) :
    I t := by
  obtain ⟨log, hrun⟩ := h
  exact (hrun.invariant (C := fun _ _ => True) hquiet (fun s e t hs _ => hstep s e t hs)
    (fun _ _ => trivial) hs).1

theorem of_quiet (h : quiet s t) : LoggedReach quiet step s t := ⟨[], .done h⟩

variable [IsPreorder S quiet]

theorem refl (s : S) : LoggedReach quiet step s s := of_quiet (refl_of quiet s)

theorem of_step {e : E} (h : step s e t) : LoggedReach quiet step s t :=
  ⟨[(s, e)], .step (refl_of quiet s) h (.done (refl_of quiet t))⟩

/-- A quiet change in front of a run. -/
private theorem run_of_quiet {log : List (S × E)} (hs : quiet s t)
    (h : LoggedRun quiet step t log u) : LoggedRun quiet step s log u := by
  cases h with
  | done ht => exact .done (trans_of quiet hs ht)
  | step ht he rest => exact .step (trans_of quiet hs ht) he rest

/-- One run after the other. -/
theorem trans (h : LoggedReach quiet step s t) (h' : LoggedReach quiet step t u) :
    LoggedReach quiet step s u := by
  obtain ⟨log, h⟩ := h
  obtain ⟨log', h'⟩ := h'
  induction h with
  | done hs => exact ⟨log', run_of_quiet hs h'⟩
  | step hs he _ ih =>
    obtain ⟨log'', hrest⟩ := ih h'
    exact ⟨_, .step hs he hrest⟩

theorem then_step {e : E} (h : LoggedReach quiet step s t) (h' : step t e u) :
    LoggedReach quiet step s u := h.trans (of_step h')

end LoggedReach

end Bao.Machine
