import Mathlib

/-!
# Code that may stop at any instruction

Firmware under intermittent power is straight-line code with branches and calls that a reset may
cut short anywhere. `Code` is such code: atomic instructions, labels, two-way branches, calls
of an environment that takes any number of steps of its own, and exits. `Semantics` says what
its parts do to a state and `CodeStep` runs it one instruction at a time.

* `Code.wp C A Q k s`: running `k` from `s`, every state on the way meets the **crash
  condition** `C`, every label `l` is reached in a state that meets `A l`, and every exit `e` is
  taken in a state that meets `Q e`. It is defined by recursion on the code, so a condition for
  concrete code is computed by unfolding it.
* `Point.Ok` carries the condition to points inside a call, and `Point.Ok.step` is the
  invariant rule: a step of the code keeps it.
* `Code.exists_exit`: if calls return, code can be run to an exit.
-/

namespace Bao.Machine

universe u

/-- Code over instructions `ι`, branch conditions `χ`, labels `ν` and exits `κ`. -/
inductive Code (ι χ ν κ : Type)
  | seq (i : ι) (k : Code ι χ ν κ)
  | label (l : ν) (k : Code ι χ ν κ)
  | ite (c : χ) (yes no : Code ι χ ν κ)
  | call (k : Code ι χ ν κ)
  | exit (e : κ)

/-- A sequence of instructions in front of some code. -/
def Code.seqs {ι χ ν κ : Type} (is : List ι) (k : Code ι χ ν κ) : Code ι χ ν κ :=
  is.foldr .seq k

/-- What the parts of code do to a state. A call is entered by `enter`, its callee takes steps
of `env`, and it returns by `leave`. -/
structure Semantics (ι χ : Type) (σ : Type u) where
  exec : ι → σ → σ
  holds : χ → σ → Bool
  enter : σ → σ
  env : σ → σ → Prop
  leave : σ → σ → Prop

/-- A control point: in front of some code, or inside a call that returns to it. -/
inductive Point (ι χ ν κ : Type)
  | before (k : Code ι χ ν κ)
  | inCall (k : Code ι χ ν κ)

variable {ι χ ν κ : Type} {σ : Type u} {S : Semantics ι χ σ}

/-- One step of code. An exit has none: where it leads is for the surrounding system to say. -/
inductive CodeStep (S : Semantics ι χ σ) : Point ι χ ν κ → σ → Point ι χ ν κ → σ → Prop
  | seq (i k s) : CodeStep S (.before (.seq i k)) s (.before k) (S.exec i s)
  | label (l k s) : CodeStep S (.before (.label l k)) s (.before k) s
  | yes (c yes no s) (h : S.holds c s = true) :
    CodeStep S (.before (.ite c yes no)) s (.before yes) s
  | no (c yes no s) (h : S.holds c s = false) :
    CodeStep S (.before (.ite c yes no)) s (.before no) s
  | enter (k s) : CodeStep S (.before (.call k)) s (.inCall k) (S.enter s)
  | env (k s t) (h : S.env s t) : CodeStep S (.inCall k) s (.inCall k) t
  | leave (k s t) (h : S.leave s t) : CodeStep S (.inCall k) s (.before k) t

/-- Any number of steps of code. -/
inductive CodeRun (S : Semantics ι χ σ) : Point ι χ ν κ → σ → Point ι χ ν κ → σ → Prop
  | refl (p s) : CodeRun S p s p s
  | head {p s q t r u} (h : CodeStep S p s q t) (hrest : CodeRun S q t r u) : CodeRun S p s r u

theorem CodeRun.trans {p q r : Point ι χ ν κ} {s t u : σ} (h : CodeRun S p s q t)
    (h' : CodeRun S q t r u) : CodeRun S p s r u := by
  induction h with
  | refl p s => exact h'
  | head hstep _ ih => exact .head hstep (ih h')

section Wp

variable (S) (C : σ → Prop) (A : ν → σ → Prop) (Q : κ → σ → Prop)

/-- **The weakest condition** under which code meets its crash condition, its labels' assertions
and its exits' postconditions. -/
def Code.wp : Code ι χ ν κ → σ → Prop
  | .seq i k, s => C s ∧ k.wp (S.exec i s)
  | .label l k, s => C s ∧ A l s ∧ k.wp s
  | .ite c yes no, s =>
    C s ∧ (S.holds c s = true → yes.wp s) ∧ (S.holds c s = false → no.wp s)
  | .call k, s => C s ∧ ∀ t, Relation.ReflTransGen S.env (S.enter s) t →
      C t ∧ ∀ u, S.leave t u → k.wp u
  | .exit e, s => C s ∧ Q e s

/-- The condition at a control point. -/
def Point.Ok : Point ι χ ν κ → σ → Prop
  | .before k, s => k.wp S C A Q s
  | .inCall k, s => ∀ t, Relation.ReflTransGen S.env s t →
      C t ∧ ∀ u, S.leave t u → k.wp S C A Q u

end Wp

variable {C : σ → Prop} {A : ν → σ → Prop} {Q : κ → σ → Prop}

/-- The crash condition holds at every point. -/
theorem Point.Ok.crash {p : Point ι χ ν κ} {s : σ} (h : p.Ok S C A Q s) : C s := by
  cases p with
  | before k =>
    cases k with
    | seq i k => exact h.1
    | label l k => exact h.1
    | ite c yes no => exact h.1
    | call k => exact h.1
    | exit e => exact h.1
  | inCall k => exact (h s .refl).1

/-- **The invariant rule**: a step of the code keeps its condition. -/
theorem Point.Ok.step {p q : Point ι χ ν κ} {s t : σ} (h : p.Ok S C A Q s)
    (hstep : CodeStep S p s q t) : q.Ok S C A Q t := by
  cases hstep with
  | seq i k => exact h.2
  | label l k => exact h.2.2
  | yes c yes no _ hc => exact h.2.1 hc
  | no c yes no _ hc => exact h.2.2 hc
  | enter k => exact h.2
  | env k _ _ hst => exact fun u hu => h u (.head hst hu)
  | leave k _ _ hst => exact (h s .refl).2 t hst

theorem Point.Ok.run {p q : Point ι χ ν κ} {s t : σ} (h : p.Ok S C A Q s)
    (hrun : CodeRun S p s q t) : q.Ok S C A Q t := by
  induction hrun with
  | refl p s => exact h
  | head hstep _ ih => exact ih (h.step hstep)

/-- Code that meets its condition takes its exits with their postconditions. -/
theorem Code.wp_exit {k : Code ι χ ν κ} {s t : σ} {e : κ} (h : k.wp S C A Q s)
    (hrun : CodeRun S (.before k) s (.before (.exit e)) t) : Q e t := by
  have hok : (Point.before k).Ok S C A Q s := h
  exact (hok.run hrun).2

/-- **Sequence rule**: instructions that keep an invariant, which implies the crash condition. -/
theorem Code.wp_seqs {I : σ → Prop} (hcrash : ∀ s, I s → C s) {is : List ι}
    (hstep : ∀ i ∈ is, ∀ s, I s → I (S.exec i s)) {k : Code ι χ ν κ}
    (hk : ∀ s, I s → k.wp S C A Q s) {s : σ} (hs : I s) : (Code.seqs is k).wp S C A Q s := by
  induction is generalizing s with
  | nil => exact hk s hs
  | cons i is ih =>
    refine ⟨hcrash s hs, ih (fun j hj => hstep j (List.mem_cons_of_mem i hj)) ?_⟩
    exact hstep i List.mem_cons_self s hs

/-- **Call rule**: an invariant of the callee's steps. -/
theorem Code.wp_call {I : σ → Prop} (hcrash : ∀ s, I s → C s)
    (henv : ∀ s t, I s → S.env s t → I t) {k : Code ι χ ν κ}
    (hk : ∀ s t, I s → S.leave s t → k.wp S C A Q t) {s : σ} (hC : C s) (hs : I (S.enter s)) :
    (Code.call k).wp S C A Q s := by
  refine ⟨hC, fun t ht => ?_⟩
  have hI : I t := by
    induction ht with
    | refl => exact hs
    | tail _ hstep ih => exact henv _ _ ih hstep
  exact ⟨hcrash t hI, fun u hu => hk t u hI hu⟩

/-- Splitting a sequence. -/
theorem Code.seqs_append (is js : List ι) (k : Code ι χ ν κ) :
    Code.seqs (is ++ js) k = Code.seqs is (Code.seqs js k) := List.foldr_append

/-- **Code can be run to an exit** if calls return. -/
theorem Code.exists_exit (hleave : ∀ s, ∃ t, S.leave s t) (k : Code ι χ ν κ) (s : σ) :
    ∃ e t, CodeRun S (.before k) s (.before (.exit e)) t := by
  induction k generalizing s with
  | seq i k ih =>
    obtain ⟨e, t, hrun⟩ := ih (S.exec i s)
    exact ⟨e, t, .head (.seq i k s) hrun⟩
  | label l k ih =>
    obtain ⟨e, t, hrun⟩ := ih s
    exact ⟨e, t, .head (.label l k s) hrun⟩
  | ite c yes no ihyes ihno =>
    cases hc : S.holds c s with
    | true =>
      obtain ⟨e, t, hrun⟩ := ihyes s
      exact ⟨e, t, .head (.yes c yes no s hc) hrun⟩
    | false =>
      obtain ⟨e, t, hrun⟩ := ihno s
      exact ⟨e, t, .head (.no c yes no s hc) hrun⟩
  | call k ih =>
    obtain ⟨u, hu⟩ := hleave (S.enter s)
    obtain ⟨e, t, hrun⟩ := ih u
    exact ⟨e, t, .head (.enter k s) (.head (.leave k _ u hu) hrun)⟩
  | exit e => exact ⟨e, s, .refl _ s⟩

end Bao.Machine
