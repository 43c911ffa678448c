import Mathlib

/-!
# First-fit packing

Wanted keys are put on a stack of bounded height one after the other, each if it still fits
(`Packs`). The stack only grows, so a key that was left out cannot be placed later: packing for
other values of the keys gains at most what the values of the keys went up by (`Packs.gain_sub_le`).

If there is room for all the keys that may be wanted, all wanted keys are placed, and the room that
is left suffices for the others (`Packs.ne_none_of_room`, `Packs.room_le`).
-/

namespace Bao.Addressing

variable {κ : Type*} {size : κ → ℕ} {capacity : ℕ}

/-- **Packing the wanted keys**, from some addresses and a top to others. -/
structure Packs (size : κ → ℕ) (capacity : ℕ) (wanted : κ → Prop) (address : κ → Option ℕ)
    (top : ℕ) (address' : κ → Option ℕ) (top' : ℕ) : Prop where
  keeps : ∀ k, address k ≠ none → address' k ≠ none
  top_le : top ≤ top'
  top_le_capacity : top' ≤ capacity
  new : ∀ k, address k = none → address' k ≠ none → wanted k ∧ top + size k ≤ capacity
  full : ∀ k, wanted k → address' k = none → capacity < top' + size k
  room : ∀ s : Finset κ, (∀ k, wanted k → k ∈ s) →
    top' + ∑ k ∈ s with address' k = none, size k ≤ top + ∑ k ∈ s with address k = none, size k

namespace Packs

variable {wanted wanted' : κ → Prop} {address address' address'' : κ → Option ℕ}
  {top top' top'' : ℕ}

/-- Nothing is wanted. -/
theorem refl (htop : top ≤ capacity) :
    Packs size capacity (fun _ => False) address top address top :=
  ⟨fun _ h => h, le_rfl, htop, fun _ h h' => absurd h h', fun _ h => h.elim, fun _ _ => le_rfl⟩

/-- One key after another. -/
theorem trans (h : Packs size capacity wanted address top address' top')
    (h' : Packs size capacity wanted' address' top' address'' top'') :
    Packs size capacity (fun k => wanted k ∨ wanted' k) address top address'' top'' := by
  refine ⟨fun k hk => h'.keeps k (h.keeps k hk), h.top_le.trans h'.top_le, h'.top_le_capacity,
    fun k hk hk'' => ?_, fun k hk hk'' => ?_, fun s hs => ?_⟩
  · by_cases hk' : address' k = none
    · obtain ⟨hwanted, hfits⟩ := h'.new k hk' hk''
      exact ⟨.inr hwanted, (Nat.add_le_add_right h.top_le _).trans hfits⟩
    · obtain ⟨hwanted, hfits⟩ := h.new k hk hk'
      exact ⟨.inl hwanted, hfits⟩
  · rcases hk with hk | hk
    · have hk' : address' k = none := by
        by_contra hne
        exact h'.keeps k hne hk''
      exact (h.full k hk hk').trans_le (Nat.add_le_add_right h'.top_le _)
    · exact h'.full k hk hk''
  · exact (h'.room s fun k hk => hs k (.inr hk)).trans (h.room s fun k hk => hs k (.inl hk))

/-- The same keys are wanted. -/
theorem congr (h : Packs size capacity wanted address top address' top')
    (hwanted : ∀ k, wanted k ↔ wanted' k) :
    Packs size capacity wanted' address top address' top' := by
  obtain rfl : wanted = wanted' := funext fun k => propext (hwanted k)
  exact h

/-- A key that has an address, or is too large. -/
theorem leave {k : κ} (htop : top ≤ capacity)
    (hk : address k = none → capacity < top + size k) :
    Packs size capacity (fun k' => k' = k) address top address top :=
  ⟨fun _ h => h, le_rfl, htop, fun _ h h' => absurd h h', fun _ h => h ▸ hk, fun _ _ => le_rfl⟩

/-- A new key that fits. -/
theorem place [DecidableEq κ] {k : κ} (hk : address k = none) (hfits : top + size k ≤ capacity) :
    Packs size capacity (fun k' => k' = k) address top (Function.update address k (some top))
      (top + size k) := by
  have hself : Function.update address k (some top) k ≠ none := by simp
  have hother : ∀ k', k' ≠ k → Function.update address k (some top) k' = address k' :=
    fun k' hne => Function.update_of_ne hne _ _
  refine ⟨fun k' hk' => ?_, Nat.le_add_right _ _, hfits, fun k' hk' hnew => ?_,
    fun k' hk' hnone => absurd (hk' ▸ hnone) hself, fun s hs => ?_⟩
  · by_cases hne : k' = k
    · exact hne ▸ hself
    · rwa [hother k' hne]
  · obtain rfl : k' = k := by
      by_contra hne
      exact hnew ((hother k' hne).trans hk')
    exact ⟨rfl, hfits⟩
  · -- the size of the key moves from the sum to the top
    have hsplit : (s.filter fun k' => address k' = none) =
        insert k (s.filter fun k' => Function.update address k (some top) k' = none) := by
      ext k'
      simp only [Finset.mem_filter, Finset.mem_insert]
      by_cases hne : k' = k
      · subst hne
        simp [hs k' rfl, hk]
      · simp [hne]
    have hnotMem : k ∉ s.filter fun k' => Function.update address k (some top) k' = none :=
      fun h => hself (Finset.mem_filter.mp h).2
    rw [hsplit, Finset.sum_insert hnotMem, Nat.add_assoc]

/-! ### Gains -/

section Gain

variable {K : Type*} [AddCommGroup K] [LinearOrder K]

/-- **A later packing gains at most what the values went up by**: a key that was wanted and left out
is left out again. -/
theorem gain_sub_le {gain : κ → K} (gain' : κ → K)
    (h : Packs size capacity (fun k => 0 < gain k) address top address' top')
    (h' : Packs size capacity wanted' address' top' address'' top'') {k : κ}
    (hgain : 0 ≤ gain k) :
    (if address'' k = none then 0 else gain' k) - (if address' k = none then 0 else gain k) ≤
      max 0 (gain' k - gain k) := by
  by_cases hk' : address' k = none
  · rw [if_pos hk', sub_zero]
    by_cases hk'' : address'' k = none
    · rw [if_pos hk'']
      exact le_max_left _ _
    · rw [if_neg hk'']
      have hzero : gain k = 0 := by
        refine le_antisymm (not_lt.mp fun hpos => ?_) hgain
        have hfull := h.full k hpos hk'
        exact absurd (h'.new k hk' hk'').2 (not_le.mpr hfull)
      rw [hzero, sub_zero]
      exact le_max_right _ _
  · rw [if_neg hk', if_neg (h'.keeps k hk')]
    exact le_max_right _ _

end Gain

/-! ### Room for all -/

/-- The room that is left suffices for the keys that are left. -/
theorem room_le (h : Packs size capacity wanted address top address' top') {s : Finset κ}
    (hs : ∀ k, wanted k → k ∈ s)
    (hroom : top + ∑ k ∈ s with address k = none, size k ≤ capacity) :
    top' + ∑ k ∈ s with address' k = none, size k ≤ capacity :=
  (h.room s hs).trans hroom

/-- **With room for all keys** every wanted key is placed. -/
theorem ne_none_of_room (h : Packs size capacity wanted address top address' top') {s : Finset κ}
    (hs : ∀ k, wanted k → k ∈ s)
    (hroom : top + ∑ k ∈ s with address k = none, size k ≤ capacity) {k : κ} (hk : wanted k) :
    address' k ≠ none := by
  intro hnone
  have hsingle : size k ≤ ∑ k ∈ s with address' k = none, size k :=
    Finset.single_le_sum (fun _ _ => Nat.zero_le _) (Finset.mem_filter.mpr ⟨hs k hk, hnone⟩)
  have hfull := h.full k hk hnone
  have hleft := h.room_le hs hroom
  omega

end Packs

end Bao.Addressing
