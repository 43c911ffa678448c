import Bao.Graph.Dominance

/-!
# Natural loops

The natural loop of a header holds the header and the vertices that reach a back edge without it.

* A loop is entered at its header (`InLoop.of_succ`), which dominates it (`InLoop.dominates`).
* A loop whose header is in another loop is part of it (`InLoop.of_header`), and of two loops that
  meet one contains the header of the other (`InLoop.nested`).
* Every vertex is reached without back edges (`forward_of_reachable`), from the header of a loop as
  well (`InLoop.forward`). A graph without cycles of such edges is reducible (`IsReducible`).
-/

namespace Bao.Graph

open Relation

variable {α : Type*} {r : α → α → Prop} {entry h g x y : α}

/-- The natural loop of a header. -/
def InLoop (r : α → α → Prop) (entry h x : α) : Prop :=
  ReflTransGen r entry x ∧ (x = h ∨ x ≠ h ∧
    ∃ l, IsBackEdge r entry l h ∧ ReflTransGen (AvoidStep r h) x l)

/-- An edge whose target does not dominate its source. -/
def Forward (r : α → α → Prop) (entry x y : α) : Prop := r x y ∧ ¬Dominates r entry y x

/-- All cycles go through back edges. -/
def IsReducible (r : α → α → Prop) (entry : α) : Prop :=
  ∀ x, ReflTransGen r entry x → ¬TransGen (Forward r entry) x x

/-! ### Dominators -/

/-- Of two dominators of a vertex one dominates the other. -/
theorem Dominates.total (hh : Dominates r entry h x) (hg : Dominates r entry g x)
    (hx : ReflTransGen r entry x) : Dominates r entry h g ∨ Dominates r entry g h := by
  by_contra hcon
  simp only [Dominates, not_or, Classical.not_imp, not_not] at hcon
  obtain ⟨⟨hhe, hhg⟩, hge, hgh⟩ := hcon
  -- each of the two is reached without the other, so everything is reached without one of them
  have havoid : ∀ y, ReflTransGen r entry y →
      ReflTransGen (AvoidStep r h) entry y ∨ ReflTransGen (AvoidStep r g) entry y := by
    intro y hy
    induction hy with
    | refl => exact .inl .refl
    | @tail y z _ hstep ih =>
      rcases ih with ih | ih
      · by_cases hz : z = h
        · exact .inr (hz ▸ hgh)
        · exact .inl (ih.tail ⟨hstep, hz⟩)
      · by_cases hz : z = g
        · exact .inl (hz ▸ hhg)
        · exact .inr (ih.tail ⟨hstep, hz⟩)
  exact (havoid x hx).elim (hh hhe) (hg hge)

/-- A path of any kind of edges to a vertex goes through its dominators. -/
theorem Dominates.on_path {s : α → α → Prop} (hs : ∀ x y, s x y → r x y)
    (hdom : Dominates r entry h x) (hx : ReflTransGen s entry x) :
    ReflTransGen s entry h ∧ ReflTransGen s h x := by
  have hpath : ∀ y, ReflTransGen s entry y → ReflTransGen (AvoidStep r h) entry y ∧ h ≠ entry ∨
      ReflTransGen s entry h ∧ ReflTransGen s h y := by
    intro y hy
    induction hy with
    | refl =>
      by_cases he : h = entry
      · exact .inr (he ▸ ⟨.refl, .refl⟩)
      · exact .inl ⟨.refl, he⟩
    | @tail y z hy hstep ih =>
      rcases ih with ⟨ih, he⟩ | ⟨ih, ih'⟩
      · by_cases hz : z = h
        · exact .inr (hz ▸ ⟨hy.tail hstep, .refl⟩)
        · exact .inl ⟨ih.tail ⟨hs y z hstep, hz⟩, he⟩
      · exact .inr ⟨ih, ih'.tail hstep⟩
  exact (hpath x hx).resolve_left fun ⟨havoid, he⟩ => hdom he havoid

/-- **Back edges are not needed** to reach a vertex. -/
theorem forward_of_reachable (hx : ReflTransGen r entry x) :
    ReflTransGen (Forward r entry) entry x := by
  induction hx with
  | refl => exact .refl
  | @tail x y _ hstep ih =>
    by_cases hdom : Dominates r entry y x
    · exact (hdom.on_path (fun _ _ h => h.1) ih).1
    · exact ih.tail ⟨hstep, hdom⟩

/-! ### Loops -/

namespace InLoop

theorem header (hh : ReflTransGen r entry h) : InLoop r entry h h := ⟨hh, .inl rfl⟩

/-- The header dominates the loop. -/
theorem dominates (hx : InLoop r entry h x) : Dominates r entry h x := by
  obtain ⟨-, rfl | ⟨-, l, hback, hpath⟩⟩ := hx
  · exact dominates_refl r entry x
  · exact fun he havoid => hback.dominates he (havoid.trans hpath)

/-- **A loop is entered at its header**: the source of any other edge into it is part of it. -/
theorem of_succ (hy : InLoop r entry h y) (hx : ReflTransGen r entry x) (hstep : r x y)
    (hne : y ≠ h) : InLoop r entry h x := by
  refine ⟨hx, ?_⟩
  by_cases hxh : x = h
  · exact .inl hxh
  · obtain ⟨l, hback, hpath⟩ := (hy.2.resolve_left hne).2
    exact .inr ⟨hxh, l, hback, ReflTransGen.head ⟨hstep, hne⟩ hpath⟩

/-- The sources of back edges are part of the loop. -/
theorem of_isBackEdge (hback : IsBackEdge r entry x h) : InLoop r entry h x := by
  refine ⟨hback.reachable, ?_⟩
  by_cases hx : x = h
  · exact .inl hx
  · exact .inr ⟨hx, x, hback, .refl⟩

/-- A loop is connected from its header. -/
theorem connected (hx : InLoop r entry h x) :
    ReflTransGen (fun a b => r a b ∧ InLoop r entry h a ∧ InLoop r entry h b) h x := by
  have hreach := hx.1
  induction hreach with
  | refl =>
    have he : h = entry := by
      by_contra he
      exact hx.dominates he .refl
    rw [he]
  | @tail x y hreach hstep ih =>
    by_cases hy : y = h
    · rw [hy]
    · have hxl := hx.of_succ hreach hstep hy
      exact (ih hxl).tail ⟨hstep, hxl, hx⟩

/-- The header of a loop in another one is not the other way round. -/
theorem header_notMem (hg : InLoop r entry h g) (hne : g ≠ h) (hh : ReflTransGen r entry h) :
    ¬InLoop r entry g h :=
  fun hcon => hne (hcon.dominates.antisymm hg.dominates hh)

/-- A path backwards inside one loop stays in another one whose header it does not meet. -/
private theorem backward (hh : ¬InLoop r entry g h) (hx : InLoop r entry h x)
    (hpath : ReflTransGen (fun a b => r a b ∧ InLoop r entry g a ∧ InLoop r entry g b) y x) :
    InLoop r entry h y := by
  induction hpath using ReflTransGen.head_induction_on with
  | refl => exact hx
  | @head y z hstep _ ih =>
    refine ih.of_succ hstep.2.1.1 hstep.1 ?_
    rintro rfl
    exact hh hstep.2.2

/-- **Loops that meet are nested**: one contains the header of the other. -/
theorem nested (hx : InLoop r entry h x) (hx' : InLoop r entry g x) :
    InLoop r entry h g ∨ InLoop r entry g h := by
  by_cases hh : InLoop r entry g h
  · exact .inr hh
  · exact .inl (backward hh hx hx'.connected)

/-- **A loop whose header is in another one** is part of it. -/
theorem of_header (hg : InLoop r entry h g) (hx : InLoop r entry g x) : InLoop r entry h x := by
  by_cases hne : g = h
  · exact hne ▸ hx
  obtain ⟨hreach, rfl | ⟨-, l, hback, hpath⟩⟩ := hx
  · exact hg
  have hh : ¬InLoop r entry g h := by
    obtain ⟨l', hback', -⟩ := (hg.2.resolve_left hne).2
    exact header_notMem hg hne (hback'.reachable.tail hback'.succ)
  -- from the back edge backwards, never through the outer header
  have hwalk : ∀ y, ReflTransGen (AvoidStep r g) y l → ReflTransGen r entry y →
      InLoop r entry h y := by
    intro y hy
    induction hy using ReflTransGen.head_induction_on with
    | refl => exact fun hl => hg.of_succ hl hback.succ hne
    | @head y z hstep hzl ih =>
      intro hy
      have hz := hy.tail hstep.1
      refine (ih hz).of_succ hy hstep.1 ?_
      rintro rfl
      exact hh ⟨hz, .inr ⟨hstep.2, l, hback, hzl⟩⟩
  exact hwalk x hpath hreach

/-- The header reaches the loop without back edges. -/
theorem forward (hx : InLoop r entry h x) : ReflTransGen (Forward r entry) h x :=
  (hx.dominates.on_path (fun _ _ h => h.1) (forward_of_reachable hx.1)).2

end InLoop

end Bao.Graph
