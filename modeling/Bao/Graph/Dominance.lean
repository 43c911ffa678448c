import Mathlib

/-!
# Dominators and back edges

A vertex dominates another one if every path from the entry to the second goes through the first. An
edge whose target dominates its source is a back edge, and its target is the header of a loop.

The last part redirects the back edges of a loop and of the loop it is entered from to a new vertex
in front of the outer header (`Redirects`). No new header appears, and the inner header is none any
more (`Redirects.isHeader`).
-/

namespace Bao.Graph

open Relation

variable {α : Type*} {r : α → α → Prop} {entry a b c d : α}

/-- An edge that does not lead to `d`. -/
def AvoidStep (r : α → α → Prop) (d x y : α) : Prop := r x y ∧ y ≠ d

/-- `d` dominates `b`: every path from the entry to `b` goes through `d`. -/
def Dominates (r : α → α → Prop) (entry d b : α) : Prop :=
  d ≠ entry → ¬ReflTransGen (AvoidStep r d) entry b

/-- A back edge: its target dominates its source. -/
structure IsBackEdge (r : α → α → Prop) (entry l h : α) : Prop where
  succ : r l h
  dominates : Dominates r entry h l
  reachable : ReflTransGen r entry l

/-- The header of a loop. -/
def IsHeader (r : α → α → Prop) (entry h : α) : Prop := ∃ l, IsBackEdge r entry l h

/-! ### Dominators -/

/-- A set that no edge leaves. -/
theorem not_reaches_of_closed {S : Set α} (hclosed : ∀ x ∈ S, ∀ y, r x y → y ∈ S) (ha : a ∈ S)
    (hb : b ∉ S) : ¬ReflTransGen r a b := by
  intro h
  refine hb ?_
  clear hb
  induction h with
  | refl => exact ha
  | tail _ hstep ih => exact hclosed _ ih _ hstep

/-- A path that avoids a vertex does not end there. -/
theorem ne_of_avoid (h : ReflTransGen (AvoidStep r d) a b) (ha : a ≠ d) : b ≠ d := by
  cases h with
  | refl => exact ha
  | tail _ hstep => exact hstep.2

theorem dominates_refl (r : α → α → Prop) (entry d : α) : Dominates r entry d d :=
  fun hd hpath => ne_of_avoid hpath (Ne.symm hd) rfl

/-- A vertex that dominates the target of an edge, other than the target, dominates its source. -/
theorem Dominates.of_succ (h : Dominates r entry d c) (hstep : r b c) (hne : c ≠ d) :
    Dominates r entry d b :=
  fun hd hpath => h hd (hpath.tail ⟨hstep, hne⟩)

/-- A path avoids another vertex as well, or there is one to that vertex. -/
theorem avoid_or_reaches (h : ReflTransGen (AvoidStep r a) entry c) (b : α) :
    ReflTransGen (AvoidStep r b) entry c ∨ ReflTransGen (AvoidStep r a) entry b := by
  induction h with
  | refl => exact .inl .refl
  | @tail x y hx hstep ih =>
    rcases ih with ih | ih
    · by_cases hy : y = b
      · exact .inr (hy ▸ hx.tail hstep)
      · exact .inl (ih.tail ⟨hstep.1, hy⟩)
    · exact .inr ih

theorem Dominates.trans (hab : Dominates r entry a b) (hbc : Dominates r entry b c) :
    Dominates r entry a c := by
  intro ha hpath
  by_cases hb : b = entry
  · exact hab ha (hb ▸ .refl)
  · rcases avoid_or_reaches hpath b with h | h
    · exact hbc hb h
    · exact hab ha h

/-- **Antisymmetry.** Of two different vertices, one is reached before the other. -/
theorem Dominates.antisymm (hab : Dominates r entry a b) (hba : Dominates r entry b a)
    (hb : ReflTransGen r entry b) : a = b := by
  by_contra hne
  have ha : a ≠ entry := by
    rintro rfl
    exact hba (Ne.symm hne) .refl
  have hbe : b ≠ entry := by
    rintro rfl
    exact hab hne .refl
  -- until one of the two is reached, both are avoided
  have hfirst : ∀ x, ReflTransGen r entry x →
      ReflTransGen (AvoidStep r a) entry x ∧ ReflTransGen (AvoidStep r b) entry x ∨
        ReflTransGen (AvoidStep r b) entry a ∨ ReflTransGen (AvoidStep r a) entry b := by
    intro x hx
    induction hx with
    | refl => exact .inl ⟨.refl, .refl⟩
    | @tail x y _ hstep ih =>
      rcases ih with ⟨hxa, hxb⟩ | ih
      · by_cases hya : y = a
        · exact .inr (.inl (hya ▸ hxb.tail ⟨hstep, hya ▸ hne⟩))
        · by_cases hyb : y = b
          · exact .inr (.inr (hyb ▸ hxa.tail ⟨hstep, hya⟩))
          · exact .inl ⟨hxa.tail ⟨hstep, hya⟩, hxb.tail ⟨hstep, hyb⟩⟩
      · exact .inr ih
  rcases hfirst b hb with ⟨h, -⟩ | h | h
  · exact hab ha h
  · exact hba hbe h
  · exact hab ha h

/-- The first arrival at a vertex. -/
theorem exists_arrival (h : ReflTransGen r entry c) (hne : c ≠ entry) :
    ∃ x, ReflTransGen (AvoidStep r c) entry x ∧ r x c := by
  have hfirst : ∀ x, ReflTransGen r entry x →
      ReflTransGen (AvoidStep r c) entry x ∨ ∃ x, ReflTransGen (AvoidStep r c) entry x ∧ r x c := by
    intro x hx
    induction hx with
    | refl => exact .inl .refl
    | @tail x y _ hstep ih =>
      rcases ih with ih | ih
      · by_cases hy : y = c
        · exact .inr ⟨x, ih, hy ▸ hstep⟩
        · exact .inl (ih.tail ⟨hstep, hy⟩)
      · exact .inr ih
  rcases hfirst c h with h | h
  · exact absurd rfl (ne_of_avoid h (Ne.symm hne))
  · exact h

/-! ### Redirected back edges -/

/-- The edges `inner.latch → inner.header` and `outer.latch → outer.header` are redirected to a new
vertex `latch` that goes to `outer.header`; `inner.header` has no predecessors but `outer.header`
and `inner.latch`. -/
structure Redirects (r r' : α → α → Prop) (entry o ol i il latch : α) : Prop where
  outer : IsBackEdge r entry ol o
  inner : IsBackEdge r entry il i
  enter : r o i
  ne : o ≠ i
  i_ne_entry : i ≠ entry
  pred_inner : ∀ x, r x i → x = o ∨ x = il
  fresh : ∀ x, ¬r x latch ∧ ¬r latch x
  latch_ne_entry : latch ≠ entry
  step_iff : ∀ x y, r' x y ↔
    r x y ∧ ¬(x = il ∧ y = i) ∧ ¬((x = ol ∨ x = il) ∧ y = o) ∨ (x = ol ∨ x = il) ∧ y = latch ∨
      x = latch ∧ y = o

namespace Redirects

variable {r' : α → α → Prop} {o ol i il latch h : α} (R : Redirects r r' entry o ol i il latch)
include R

theorem o_ne_latch : o ≠ latch := fun h => (R.fresh i).2 (h ▸ R.enter)

theorem i_ne_latch : i ≠ latch := fun h => (R.fresh il).1 (h ▸ R.inner.succ)

/-- The inner loop is entered from the outer header only. -/
theorem dominates_inner : Dominates r entry o i := by
  intro ho hpath
  -- a path that avoids `o` never gets to `i`
  have havoid : ∀ x, ReflTransGen (AvoidStep r o) entry x →
    ReflTransGen (AvoidStep r i) entry x := by
    intro x hx
    induction hx with
    | refl => exact .refl
    | @tail x y hx hstep ih =>
      refine ih.tail ⟨hstep.1, ?_⟩
      rintro rfl
      rcases R.pred_inner x hstep.1 with rfl | rfl
      · exact ne_of_avoid hx (Ne.symm ho) rfl
      · exact R.inner.dominates R.i_ne_entry ih
  exact ne_of_avoid (havoid i hpath) (Ne.symm R.i_ne_entry) rfl

theorem dominates_innerLatch : Dominates r entry o il := R.dominates_inner.trans R.inner.dominates

/-- The outer header is reachable. -/
theorem reachable_outer : ReflTransGen r entry o := R.outer.reachable.tail R.outer.succ

/-- An edge that is not redirected stays. -/
private theorem step_of {x y : α} (hstep : r x y) (hinner : ¬(x = il ∧ y = i))
    (houter : ¬((x = ol ∨ x = il) ∧ y = o)) : r' x y :=
  (R.step_iff x y).mpr (.inl ⟨hstep, hinner, houter⟩)

private theorem step_latch {x : α} (hx : x = ol ∨ x = il) : r' x latch :=
  (R.step_iff x latch).mpr (.inr (.inl ⟨hx, rfl⟩))

private theorem latch_step : r' latch o := (R.step_iff latch o).mpr (.inr (.inr ⟨rfl, rfl⟩))

/-- The inner loop is still entered from the outer header. -/
private theorem enter_step : r' o i := by
  refine R.step_of R.enter (fun h => ?_) fun h => R.ne h.2.symm
  -- the outer header is not in the inner loop
  have hdom : Dominates r entry i o := h.1 ▸ R.inner.dominates
  exact R.ne (R.dominates_inner.antisymm hdom (R.reachable_outer.tail R.enter))

/-- **Dominators stay.** What dominates a vertex afterwards did before. -/
theorem dominates_of {a b : α} (ha : a ≠ latch) (h : Dominates r' entry a b) :
    Dominates r entry a b := by
  intro hae hpath
  have hkeep : ∀ x, ReflTransGen (AvoidStep r a) entry x →
    ReflTransGen (AvoidStep r' a) entry x := by
    intro x hx
    induction hx with
    | refl => exact .refl
    | @tail x y hx hstep ih =>
      obtain ⟨hxy, hya⟩ := hstep
      have hvia : ∀ z, z = ol ∨ z = il → z = x → o ≠ a → ReflTransGen (AvoidStep r' a) entry o := by
        rintro z hz rfl hoa
        exact (ih.tail ⟨R.step_latch hz, Ne.symm ha⟩).tail ⟨R.latch_step, hoa⟩
      by_cases hinner : x = il ∧ y = i
      · obtain ⟨rfl, rfl⟩ := hinner
        have hoa : o ≠ a := by
          rintro rfl
          exact R.dominates_innerLatch hae hx
        exact (hvia x (.inr rfl) rfl hoa).tail ⟨R.enter_step, hya⟩
      · by_cases houter : (x = ol ∨ x = il) ∧ y = o
        · obtain ⟨hx', rfl⟩ := houter
          exact hvia x hx' rfl hya
        · exact ih.tail ⟨R.step_of hxy hinner houter, hya⟩
  exact h hae (hkeep b hpath)

/-- **No dominator is lost.** What dominates a vertex before does afterwards. -/
theorem dominates_redirect {a b : α} (hb : b ≠ latch) (h : Dominates r entry a b) :
    Dominates r' entry a b := by
  intro hae hpath
  have hkeep : ∀ x, ReflTransGen (AvoidStep r' a) entry x →
      (x ≠ latch → ReflTransGen (AvoidStep r a) entry x) ∧
        (x = latch → o ≠ a → ReflTransGen (AvoidStep r a) entry o) := by
    intro x hx
    induction hx with
    | refl => exact ⟨fun _ => .refl, fun h => absurd h.symm R.latch_ne_entry⟩
    | @tail x y _ hstep ih =>
      obtain ⟨hxy, hya⟩ := hstep
      rcases (R.step_iff x y).mp hxy with ⟨hold, -⟩ | ⟨hx, rfl⟩ | ⟨rfl, rfl⟩
      · have hx : x ≠ latch := fun h => (R.fresh y).2 (h ▸ hold)
        refine ⟨fun _ => (ih.1 hx).tail ⟨hold, hya⟩, ?_⟩
        rintro rfl
        exact absurd hold (R.fresh x).1
      · refine ⟨fun h => absurd rfl h, fun _ hoa => ?_⟩
        rcases hx with rfl | rfl
        · exact (ih.1 fun h => (R.fresh o).2 (h ▸ R.outer.succ)).tail ⟨R.outer.succ, hoa⟩
        · have hil := ih.1 fun h => (R.fresh i).2 (h ▸ R.inner.succ)
          by_cases ho : o = entry
          · rw [ho]
          · exact (avoid_or_reaches hil o).resolve_left (R.dominates_innerLatch ho)
      · exact ⟨fun _ => ih.2 rfl hya, fun h => absurd h R.o_ne_latch⟩
  exact h hae ((hkeep b hpath).1 hb)

/-- What is reachable afterwards was reachable before. -/
theorem reachable_of {x : α} (h : ReflTransGen r' entry x) (hx : x ≠ latch) :
    ReflTransGen r entry x := by
  induction h with
  | refl => exact .refl
  | @tail x y hpath hstep ih =>
    rcases (R.step_iff x y).mp hstep with ⟨hold, -⟩ | ⟨-, rfl⟩ | ⟨-, rfl⟩
    · exact (ih fun h => (R.fresh y).2 (h ▸ hold)).tail hold
    · exact absurd rfl hx
    · exact R.reachable_outer

/-- **The latches are reached without the new vertex.** -/
theorem reachable_avoid {x : α} (h : ReflTransGen r entry x) :
    ReflTransGen (AvoidStep r' latch) entry x := by
  -- up to the first arrival at the outer header no edge is redirected
  have houter : ReflTransGen (AvoidStep r' latch) entry o := by
    by_cases ho : o = entry
    · rw [ho]
    · obtain ⟨x, hx, hstep⟩ := exists_arrival R.reachable_outer ho
      have hbefore : ∀ y, ReflTransGen (AvoidStep r o) entry y →
          (y ≠ ol ∧ y ≠ il) ∧ ReflTransGen (AvoidStep r' latch) entry y := by
        intro y hy
        have hlatches : ∀ y, ReflTransGen (AvoidStep r o) entry y → y ≠ ol ∧ y ≠ il := by
          intro y hy
          refine ⟨?_, ?_⟩
          · rintro rfl
            exact R.outer.dominates ho hy
          · rintro rfl
            exact R.dominates_innerLatch ho hy
        refine ⟨hlatches y hy, ?_⟩
        induction hy with
        | refl => exact .refl
        | @tail y z hy hstep ih =>
          obtain ⟨hol, hil⟩ := hlatches y hy
          refine ih.tail ⟨R.step_of hstep.1 (fun h => hil h.1) fun h => h.1.elim hol hil, ?_⟩
          rintro rfl
          exact (R.fresh y).1 hstep.1
      obtain ⟨⟨hol, hil⟩, hpath⟩ := hbefore x hx
      exact hpath.tail ⟨R.step_of hstep (fun h => hil h.1) fun h => h.1.elim hol hil, R.o_ne_latch⟩
  induction h with
  | refl => exact .refl
  | @tail x y _ hstep ih =>
    by_cases hinner : x = il ∧ y = i
    · rw [hinner.2]
      exact houter.tail ⟨R.enter_step, R.i_ne_latch⟩
    · by_cases hback : (x = ol ∨ x = il) ∧ y = o
      · rw [hback.2]
        exact houter
      · refine ih.tail ⟨R.step_of hstep hinner hback, ?_⟩
        rintro rfl
        exact (R.fresh x).1 hstep

/-- **Headers after a redirection.** They have been headers before, and the inner header is none any
more. -/
theorem isHeader {h : α} (hh : IsHeader r' entry h) : IsHeader r entry h ∧ h ≠ i := by
  obtain ⟨l, hback⟩ := hh
  -- the new vertex is no header, since it is not needed to get to the latches
  have hlatch : h ≠ latch := by
    rintro rfl
    have hl : l = ol ∨ l = il := by
      rcases (R.step_iff l h).mp hback.succ with ⟨hold, -⟩ | ⟨hl, -⟩ | ⟨-, ho⟩
      · exact absurd hold (R.fresh l).1
      · exact hl
      · exact absurd ho.symm R.o_ne_latch
    have hreach : ReflTransGen r entry l := by
      rcases hl with rfl | rfl
      · exact R.outer.reachable
      · exact R.inner.reachable
    exact hback.dominates R.latch_ne_entry (R.reachable_avoid hreach)
  have hdom := R.dominates_of hlatch hback.dominates
  rcases (R.step_iff l h).mp hback.succ with ⟨hold, hinner, -⟩ | ⟨-, rfl⟩ | ⟨-, rfl⟩
  · have hl : l ≠ latch := fun hl => (R.fresh h).2 (hl ▸ hold)
    refine ⟨⟨l, hold, hdom, R.reachable_of hback.reachable hl⟩, ?_⟩
    rintro rfl
    -- the only predecessor left is the outer header, which dominates it
    rcases R.pred_inner l hold with rfl | rfl
    · exact R.ne (R.dominates_inner.antisymm hdom (R.reachable_outer.tail R.enter))
    · exact hinner ⟨rfl, rfl⟩
  · exact absurd rfl hlatch
  · exact ⟨⟨ol, R.outer⟩, R.ne⟩

end Redirects

end Bao.Graph
