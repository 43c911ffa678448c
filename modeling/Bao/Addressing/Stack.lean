import Mathlib

/-!
# Bump allocation

Keys get addresses one after the other, each at the present top, which then moves up by the size of
the key (`Stacked`). Two keys never overlap, every key ends at or below the top, and the sizes of
any keys that have addresses add up to at most the top.
-/

namespace Bao.Addressing

variable {κ : Type*} [DecidableEq κ] {size : κ → ℕ}

/-- **Addresses handed out from a top** that moves up by the size of each new key. -/
inductive Stacked (size : κ → ℕ) : (κ → Option ℕ) → ℕ → Prop
  | empty : Stacked size (fun _ => none) 0
  | push {address : κ → Option ℕ} {top : ℕ} {k : κ} (below : Stacked size address top)
      (new : address k = none) :
      Stacked size (Function.update address k (some top)) (top + size k)

namespace Stacked

variable {address : κ → Option ℕ} {top : ℕ}

/-- Every key ends at or below the top. -/
theorem end_le (h : Stacked size address top) {k : κ} {a : ℕ} (hk : address k = some a) :
    a + size k ≤ top := by
  induction h with
  | empty => simp at hk
  | @push address top k' _ _ ih =>
    by_cases hkk : k = k'
    · subst hkk
      rw [Function.update_self, Option.some.injEq] at hk
      rw [hk]
    · rw [Function.update_of_ne hkk] at hk
      exact (ih hk).trans (Nat.le_add_right top (size k'))

/-- **Keys do not overlap.** -/
theorem disjoint (h : Stacked size address top) {k k' : κ} {a a' : ℕ} (hne : k ≠ k')
    (hk : address k = some a) (hk' : address k' = some a') :
    a + size k ≤ a' ∨ a' + size k' ≤ a := by
  induction h with
  | empty => simp at hk
  | @push address top j below _ ih =>
    by_cases hkj : k = j
    · -- the new key is above the other one
      subst hkj
      rw [Function.update_self, Option.some.injEq] at hk
      rw [Function.update_of_ne (Ne.symm hne)] at hk'
      exact .inr (hk ▸ below.end_le hk')
    · rw [Function.update_of_ne hkj] at hk
      by_cases hkj' : k' = j
      · subst hkj'
        rw [Function.update_self, Option.some.injEq] at hk'
        exact .inl (hk' ▸ below.end_le hk)
      · rw [Function.update_of_ne hkj'] at hk'
        exact ih hk hk'

/-- **The sizes of keys add up to at most the top.** -/
theorem sum_le (h : Stacked size address top) (keys : Finset κ)
    (hkeys : ∀ k ∈ keys, (address k).isSome) : ∑ k ∈ keys, size k ≤ top := by
  induction h generalizing keys with
  | empty =>
    have hempty : keys = ∅ := Finset.eq_empty_of_forall_notMem fun k hk => by simpa using hkeys k hk
    rw [hempty, Finset.sum_empty]
  | @push address top j _ _ ih =>
    have herase : ∑ k ∈ keys.erase j, size k ≤ top := by
      refine ih _ fun k hk => ?_
      obtain ⟨hne, hk⟩ := Finset.mem_erase.mp hk
      have := hkeys k hk
      rwa [Function.update_of_ne hne] at this
    by_cases hj : j ∈ keys
    · rw [← Finset.sum_erase_add _ _ hj]
      exact Nat.add_le_add_right herase (size j)
    · rw [Finset.erase_eq_of_notMem hj] at herase
      exact herase.trans (Nat.le_add_right top (size j))

end Stacked

end Bao.Addressing
