import Mathlib

/-!
# Linear models over the rationals

A linear model is what a MILP solver is handed: declared variables with bounds and a type,
linear constraints, and an objective. Expressions are kept in the form in which a program
accumulates them — a constant and a list of scaled variables, repetitions allowed — and are
read through `LinExpr.eval` only. Everything is computable, so feasibility of a concrete
assignment is decidable by evaluation.

* `LinExpr.eval` and its `simp` set: evaluation is linear (`eval_add`, `eval_sub`,
  `eval_smul`, `eval_sum`).
* `Constraint.Holds`, `VarDecl.Holds` and `Model.Feasible` are the meaning of a model.
* `Model.values` are the objective values of the feasible assignments that extend given values of
  some variables; the optimum is the least of them.
-/

namespace Bao

universe u

/-- An affine expression as a program accumulates it: a constant and scaled variables. -/
structure LinExpr (ι : Type u) where
  const : ℚ
  terms : List (ℚ × ι)

namespace LinExpr

variable {ι : Type u}

/-- The value of an expression under an assignment. -/
def eval (x : ι → ℚ) (e : LinExpr ι) : ℚ :=
  e.const + (e.terms.map fun t => t.1 * x t.2).sum

/-- A constant expression. -/
def ofRat (q : ℚ) : LinExpr ι := ⟨q, []⟩

/-- A single variable. -/
def var (i : ι) : LinExpr ι := ⟨0, [(1, i)]⟩

instance : Zero (LinExpr ι) := ⟨ofRat 0⟩

instance : Add (LinExpr ι) := ⟨fun e f => ⟨e.const + f.const, e.terms ++ f.terms⟩⟩

instance : SMul ℚ (LinExpr ι) :=
  ⟨fun c e => ⟨c * e.const, e.terms.map fun t => (c * t.1, t.2)⟩⟩

instance : Neg (LinExpr ι) := ⟨fun e => (-1 : ℚ) • e⟩

instance : Sub (LinExpr ι) := ⟨fun e f => e + -f⟩

section Eval

variable (x : ι → ℚ)

@[simp] theorem eval_ofRat (q : ℚ) : (ofRat q : LinExpr ι).eval x = q := by
  simp [eval, ofRat]

@[simp] theorem eval_var (i : ι) : (var i).eval x = x i := by
  simp [eval, var]

@[simp] theorem eval_zero : (0 : LinExpr ι).eval x = 0 := eval_ofRat x 0

@[simp] theorem eval_add (e f : LinExpr ι) : (e + f).eval x = e.eval x + f.eval x := by
  change e.const + f.const + ((e.terms ++ f.terms).map fun t => t.1 * x t.2).sum = _
  rw [List.map_append, List.sum_append, eval, eval]
  ring

@[simp] theorem eval_smul (c : ℚ) (e : LinExpr ι) : (c • e).eval x = c * e.eval x := by
  have hterms : ∀ l : List (ℚ × ι),
      ((l.map fun t => (c * t.1, t.2)).map fun t => t.1 * x t.2).sum
        = c * (l.map fun t => t.1 * x t.2).sum := by
    intro l
    induction l with
    | nil => simp
    | cons t l ih =>
      rw [List.map_cons, List.map_cons, List.sum_cons, ih, List.map_cons, List.sum_cons]
      ring
  change c * e.const + ((e.terms.map fun t => (c * t.1, t.2)).map fun t => t.1 * x t.2).sum = _
  rw [hterms, eval]
  ring

@[simp] theorem eval_neg (e : LinExpr ι) : (-e).eval x = -e.eval x := by
  change ((-1 : ℚ) • e).eval x = _
  rw [eval_smul]
  ring

@[simp] theorem eval_sub (e f : LinExpr ι) : (e - f).eval x = e.eval x - f.eval x := by
  change (e + -f).eval x = _
  rw [eval_add, eval_neg]
  ring

/-- Accumulating expressions in a loop evaluates to the sum of their values. -/
@[simp] theorem eval_sum (l : List (LinExpr ι)) :
    l.sum.eval x = (l.map fun e => e.eval x).sum := by
  induction l with
  | nil => exact eval_zero x
  | cons e l ih =>
    rw [List.sum_cons, eval_add, ih, List.map_cons, List.sum_cons]

end Eval

end LinExpr

/-- The relation a constraint asserts between its two sides. -/
inductive Sense
  | le
  | ge
  | eq
  deriving DecidableEq, Repr

/-- A linear constraint. -/
structure Constraint (ι : Type u) where
  lhs : LinExpr ι
  sense : Sense
  rhs : LinExpr ι

/-- A constraint holds under an assignment. -/
def Constraint.Holds {ι : Type u} (x : ι → ℚ) (c : Constraint ι) : Prop :=
  match c.sense with
  | .le => c.lhs.eval x ≤ c.rhs.eval x
  | .ge => c.rhs.eval x ≤ c.lhs.eval x
  | .eq => c.lhs.eval x = c.rhs.eval x

instance {ι : Type u} (x : ι → ℚ) (c : Constraint ι) : Decidable (c.Holds x) :=
  match c with
  | ⟨e, .le, f⟩ => inferInstanceAs (Decidable (e.eval x ≤ f.eval x))
  | ⟨e, .ge, f⟩ => inferInstanceAs (Decidable (f.eval x ≤ e.eval x))
  | ⟨e, .eq, f⟩ => inferInstanceAs (Decidable (e.eval x = f.eval x))

@[simp] theorem Constraint.holds_le {ι : Type u} {x : ι → ℚ} {e f : LinExpr ι} :
    (Constraint.mk e .le f).Holds x ↔ e.eval x ≤ f.eval x := Iff.rfl

@[simp] theorem Constraint.holds_ge {ι : Type u} {x : ι → ℚ} {e f : LinExpr ι} :
    (Constraint.mk e .ge f).Holds x ↔ f.eval x ≤ e.eval x := Iff.rfl

@[simp] theorem Constraint.holds_eq {ι : Type u} {x : ι → ℚ} {e f : LinExpr ι} :
    (Constraint.mk e .eq f).Holds x ↔ e.eval x = f.eval x := Iff.rfl

/-- The type a variable is declared with. -/
inductive VarType
  | binary
  | continuous
  deriving DecidableEq, Repr

/-- A declared variable: its name, bounds and type. -/
structure VarDecl (ι : Type u) where
  var : ι
  lb : ℚ
  ub : ℚ
  vtype : VarType

/-- An assignment respects a declaration: the bounds, and integrality of a binary. -/
def VarDecl.Holds {ι : Type u} (x : ι → ℚ) (v : VarDecl ι) : Prop :=
  v.lb ≤ x v.var ∧ x v.var ≤ v.ub ∧ (v.vtype = .binary → x v.var = 0 ∨ x v.var = 1)

instance {ι : Type u} (x : ι → ℚ) (v : VarDecl ι) : Decidable (v.Holds x) :=
  inferInstanceAs (Decidable (_ ∧ _ ∧ _))

/-- A linear model: declared variables, constraints and an objective to be minimized. -/
structure Model (ι : Type u) where
  vars : List (VarDecl ι)
  constrs : List (Constraint ι)
  objective : LinExpr ι

/-- An assignment is feasible when it respects every declaration and every constraint. -/
def Model.Feasible {ι : Type u} (M : Model ι) (x : ι → ℚ) : Prop :=
  (∀ v ∈ M.vars, v.Holds x) ∧ ∀ c ∈ M.constrs, c.Holds x

instance {ι : Type u} (M : Model ι) (x : ι → ℚ) : Decidable (M.Feasible x) :=
  inferInstanceAs (Decidable (_ ∧ _))

/-- The objective values of the feasible assignments that agree with `x` on the variables of `s`. -/
def Model.values {ι : Type u} (M : Model ι) (s : Set ι) (x : ι → ℚ) : Set ℚ :=
  {q | ∃ y, M.Feasible y ∧ Set.EqOn y x s ∧ M.objective.eval y = q}

/-- **A translation of assignments** that keeps feasibility, the fixed variables and the objective
keeps the values. -/
theorem Model.values_subset {ι : Type u} {M N : Model ι} {s : Set ι} {x : ι → ℚ}
    (f : (ι → ℚ) → ι → ℚ) (hfeasible : ∀ y, M.Feasible y → N.Feasible (f y))
    (hfixed : ∀ y, M.Feasible y → Set.EqOn (f y) y s)
    (hobjective : ∀ y, M.Feasible y → N.objective.eval (f y) = M.objective.eval y) :
    M.values s x ⊆ N.values s x := by
  rintro q ⟨y, hy, hyx, rfl⟩
  exact ⟨f y, hfeasible y hy, (hfixed y hy).trans hyx, hobjective y hy⟩

end Bao
