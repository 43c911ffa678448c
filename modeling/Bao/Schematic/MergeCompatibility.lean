import Bao.Schematic.Extension
import Mathlib

/-!
# Merging and compatibility of allocations

`mergeAllocations` folds over the allocations of an interval with a growing set of occupied ranges;
`isCompatibleWith` compares two allocations in both directions. Read as maps from variables to
places, both compare allocations in one way: two variables with places are compatible if they are
one variable in one place, or two variables in disjoint ranges (`PlacesCompatible`).

* Two well-formed allocations are compatible if all their places are (`isCompatibleWith_iff`).
* A merge adds one place after the other and fails at the first that is incompatible with one it
  has (`addNewVarAlloc_iff`), so it succeeds just for compatible allocations, with the union of
  their places, in any order (`mergeAllocations_agrees_with_isCompatibleWith`).
-/

namespace Bao.Schematic

namespace RegionAllocation

/-- Where an allocation has a variable: nowhere, in NVM, or in VM at an offset. A VM variable
without an offset reads as an NVM variable. -/
def placeOf (a : RegionAllocation) (v : Value) : Option (Option ℕ) :=
  (a.vars.lookup v).map fun va => if va.placement = .vm then a.vmOffsets.lookup v else none

end RegionAllocation

namespace SchematicStateAnalysis

variable (state : SchematicStateAnalysis)

/-- The bytes of a variable at an address, up to the first address behind it. -/
def rangeAt (v : Value) (x : ℕ) : ℕ × ℕ := (x, (x + state.getVarSizeBytes v) % 2 ^ 32)

/-- One range ends before the other starts, which is the overlap test of the allocator. An empty
range strictly inside another one has no byte in common with it and overlaps it here. -/
def RangesDisjoint (v : Value) (x : ℕ) (w : Value) (y : ℕ) : Prop :=
  (state.rangeAt v x).2 ≤ y ∨ (state.rangeAt w y).2 ≤ x

/-- **Compatible places**: one variable has one place, two variables have disjoint ranges. -/
def PlacesCompatible (v w : Value) (p q : Option ℕ) : Prop :=
  (v = w → p = q) ∧ (v ≠ w → ∀ x ∈ p, ∀ y ∈ q, state.RangesDisjoint v x w y)

end SchematicStateAnalysis

open SchematicStateAnalysis

/-- A well-formed allocation: every VM variable has an offset, and the ranges are disjoint. -/
structure RegionAllocation.WellFormed (state : SchematicStateAnalysis) (a : RegionAllocation) :
    Prop where
  offset : ∀ v va, a.vars.lookup v = some va → va.placement = .vm →
    ∃ x, a.vmOffsets.lookup v = some x
  disjoint : ∀ v w, v ≠ w → ∀ x y, a.placeOf v = some (some x) → a.placeOf w = some (some y) →
    state.RangesDisjoint v x w y

section Places

variable {state : SchematicStateAnalysis} {a b : RegionAllocation} {v w : Value}

theorem placeOf_eq_none : a.placeOf v = none ↔ a.vars.lookup v = none := Option.map_eq_none_iff

/-- The place of a VM variable. -/
theorem placeOf_vm {va : VariableAllocation} (hv : a.vars.lookup v = some va)
    (hvm : va.placement = .vm) : a.placeOf v = some (a.vmOffsets.lookup v) := by
  rw [RegionAllocation.placeOf, hv, Option.map_some, if_pos hvm]

/-- The place of an NVM variable. -/
theorem placeOf_nvm {va : VariableAllocation} (hv : a.vars.lookup v = some va)
    (hvm : va.placement ≠ .vm) : a.placeOf v = some none := by
  rw [RegionAllocation.placeOf, hv, Option.map_some, if_neg hvm]

/-- A place in VM is the offset of a VM variable. -/
theorem placeOf_eq_some_some {x : ℕ} : a.placeOf v = some (some x) ↔
    ∃ va, a.vars.lookup v = some va ∧ va.placement = .vm ∧ a.vmOffsets.lookup v = some x := by
  constructor
  · intro h
    obtain ⟨va, hva, hplace⟩ := Option.map_eq_some_iff.mp h
    by_cases hvm : va.placement = .vm
    · exact ⟨va, hva, hvm, by rwa [if_pos hvm] at hplace⟩
    · rw [if_neg hvm] at hplace
      cases hplace
  · rintro ⟨va, hva, hvm, hx⟩
    rw [placeOf_vm hva hvm, hx]

theorem placesCompatible_comm {p q : Option ℕ} :
    state.PlacesCompatible v w p q ↔ state.PlacesCompatible w v q p := by
  constructor <;> rintro ⟨hsame, hdiff⟩ <;>
    exact ⟨fun h => (hsame h.symm).symm, fun h y hy x hx => (hdiff (Ne.symm h) x hx y hy).symm⟩

/-- The places of one well-formed allocation are compatible. -/
theorem RegionAllocation.WellFormed.placesCompatible (ha : a.WellFormed state) {p q : Option ℕ}
    (hp : a.placeOf v = some p) (hq : a.placeOf w = some q) :
    state.PlacesCompatible v w p q := by
  refine ⟨?_, fun hne x hx y hy => ?_⟩
  · rintro rfl
    exact Option.some.inj (hp.symm.trans hq)
  · exact ha.disjoint v w hne x y (hp.trans (congrArg some hx)) (hq.trans (congrArg some hy))

theorem mem_vars_iff : v ∈ a.vars ↔ ∃ p, a.placeOf v = some p := by
  rw [← AList.lookup_isSome, Option.isSome_iff_exists]
  constructor
  · rintro ⟨va, hva⟩
    exact ⟨_, Option.map_eq_some_iff.mpr ⟨va, hva, rfl⟩⟩
  · rintro ⟨p, hp⟩
    obtain ⟨va, hva, -⟩ := Option.map_eq_some_iff.mp hp
    exact ⟨va, hva⟩

/-- Two well-formed allocations that have a variable in one place agree on its placement and its
offset. -/
theorem RegionAllocation.WellFormed.agree (ha : a.WellFormed state) (hb : b.WellFormed state)
    {p : Option ℕ} (hp : a.placeOf v = some p) (hq : b.placeOf v = some p) :
    ∃ va vb, a.vars.lookup v = some va ∧ b.vars.lookup v = some vb ∧
      vb.placement = va.placement ∧
      (va.placement = .vm → b.vmOffsets.lookup v = a.vmOffsets.lookup v) := by
  obtain ⟨va, hva, hpa⟩ := Option.map_eq_some_iff.mp hp
  obtain ⟨vb, hvb, hpb⟩ := Option.map_eq_some_iff.mp hq
  refine ⟨va, vb, hva, hvb, ?_⟩
  by_cases hvm : va.placement = .vm
  · obtain ⟨x, hx⟩ := ha.offset v va hva hvm
    rw [if_pos hvm, hx] at hpa
    subst hpa
    obtain ⟨vb', hvb', hvm', hx'⟩ := placeOf_eq_some_some.mp hq
    obtain rfl := Option.some.inj (hvb.symm.trans hvb')
    exact ⟨hvm'.trans hvm.symm, fun _ => hx'.trans hx.symm⟩
  · rw [if_neg hvm] at hpa
    subst hpa
    have hvm' : vb.placement ≠ .vm := fun hvm' => by
      obtain ⟨x, hx⟩ := hb.offset v vb hvb hvm'
      rw [if_pos hvm', hx] at hpb
      cases hpb
    exact ⟨by cases hva' : va.placement <;> cases hvb' : vb.placement <;> simp_all,
      fun h => absurd h hvm⟩

private theorem forall_mem_walk {ν : Type} {m : ValueMap ν} {f : Value × ν → Prop} :
    (∀ e ∈ m.walk, f e) ↔ ∀ v x, m.lookup v = some x → f (v, x) :=
  ⟨fun h v x hv => h (v, x) (ValueMap.mem_walk.mpr hv),
    fun h e he => h e.1 e.2 (ValueMap.mem_walk.mp he)⟩

private theorem forall_placeOf {f : Value → Option ℕ → Prop} :
    (∀ v p, a.placeOf v = some p → f v p) ↔
      ∀ v va, a.vars.lookup v = some va → ∀ p, a.placeOf v = some p → f v p := by
  refine ⟨fun h v va _ p hp => h v p hp, fun h v p hp => ?_⟩
  obtain ⟨va, hva, -⟩ := Option.map_eq_some_iff.mp hp
  exact h v va hva p hp

/-- Ranges below the end of the address space that are disjoint have no byte in common. -/
theorem disjoint_bytes_of_rangesDisjoint {x y : ℕ} (h : state.RangesDisjoint v x w y)
    (hv : x + state.getVarSizeBytes v < 2 ^ 32) (hw : y + state.getVarSizeBytes w < 2 ^ 32) :
    Disjoint (Finset.Ico x (x + state.getVarSizeBytes v))
      (Finset.Ico y (y + state.getVarSizeBytes w)) := by
  rw [RangesDisjoint, rangeAt, rangeAt, Nat.mod_eq_of_lt hv, Nat.mod_eq_of_lt hw] at h
  rw [Finset.disjoint_left]
  intro byte hbyte hbyte'
  obtain ⟨hx, hx'⟩ := Finset.mem_Ico.mp hbyte
  obtain ⟨hy, hy'⟩ := Finset.mem_Ico.mp hbyte'
  rcases h with h | h
  · exact absurd (hx'.trans_le h) (not_lt.mpr hy)
  · exact absurd (hy'.trans_le h) (not_lt.mpr hx)

/-- An occupied range is that of a VM variable. -/
theorem mem_occupied {r : ℕ × ℕ} :
    r ∈ a.occupied state ↔ ∃ v x, a.placeOf v = some (some x) ∧ r = state.rangeAt v x := by
  simp only [RegionAllocation.occupied, List.mem_filterMap, Prod.exists, ValueMap.mem_walk,
    placeOf_eq_some_some]
  constructor
  · rintro ⟨v, va, hva, hr⟩
    by_cases hvm : va.placement = .vm
    · rw [if_pos hvm] at hr
      obtain ⟨x, hx, rfl⟩ := Option.map_eq_some_iff.mp hr
      exact ⟨v, x, ⟨va, hva, hvm, hx⟩, rfl⟩
    · rw [if_neg hvm] at hr
      cases hr
  · rintro ⟨v, x, ⟨va, hva, hvm, hx⟩, rfl⟩
    exact ⟨v, va, hva, by rw [if_pos hvm, hx]; rfl⟩

/-- No byte of a range is taken. -/
theorem intervalIsEmpty_iff {x : ℕ} :
    intervalIsEmpty a x (state.rangeAt v x).2 state = true ↔
      ∀ w y, a.placeOf w = some (some y) → state.RangesDisjoint v x w y := by
  simp only [intervalIsEmpty, List.all_eq_true, Bool.not_eq_true', Bool.and_eq_false_iff,
    decide_eq_false_iff_not, not_lt]
  constructor
  · intro h w y hw
    exact (h _ (mem_occupied.mpr ⟨w, y, hw, rfl⟩)).symm
  · intro h r hr
    obtain ⟨w, y, hw, rfl⟩ := mem_occupied.mp hr
    exact (h w y hw).symm

/-- **One direction of the check**: the variables of both have one place, and the others of the
second allocation are disjoint from the first. -/
theorem isCompatibleOneWay_iff (ha : a.WellFormed state) (hb : b.WellFormed state) :
    isCompatibleOneWay a b state = true ↔ ∀ v p, b.placeOf v = some p →
      (∀ q, a.placeOf v = some q → q = p) ∧ (a.placeOf v = none → ∀ x ∈ p, ∀ w y,
        a.placeOf w = some (some y) → state.RangesDisjoint v x w y) := by
  rw [isCompatibleOneWay, List.all_eq_true, forall_mem_walk, forall_placeOf]
  -- the check goes through the variables of `b`; the two placements decide what it compares
  refine forall₂_congr fun v vb => forall_congr' fun hvb => ?_
  cases hva : a.vars.lookup v with
  | none =>
    have hnone : a.placeOf v = none := placeOf_eq_none.mpr hva
    by_cases hvm : vb.placement = .vm
    · obtain ⟨x, hx⟩ := hb.offset v vb hvb hvm
      have hplace : b.placeOf v = some (some x) := by rw [placeOf_vm hvb hvm, hx]
      simp only [if_pos hvm, hx, hplace, hnone]
      simpa [rangeAt] using intervalIsEmpty_iff (a := a) (v := v) (x := x)
    · simp [if_neg hvm, placeOf_nvm hvb hvm, hnone]
  | some va =>
    by_cases hvm : vb.placement = .vm
    · obtain ⟨x, hx⟩ := hb.offset v vb hvb hvm
      have hplace : b.placeOf v = some (some x) := by rw [placeOf_vm hvb hvm, hx]
      by_cases hvm' : va.placement = .vm
      · obtain ⟨y, hy⟩ := ha.offset v va hva hvm'
        have hplace' : a.placeOf v = some (some y) := by rw [placeOf_vm hva hvm', hy]
        simp [hvm, hvm', hx, hy, hplace, hplace']
      · have hne : vb.placement ≠ va.placement := fun h => hvm' (h ▸ hvm)
        simp [hne, hplace, placeOf_nvm hva hvm']
    · by_cases hvm' : va.placement = .vm
      · obtain ⟨y, hy⟩ := ha.offset v va hva hvm'
        have hne : vb.placement ≠ va.placement := fun h => hvm (h ▸ hvm')
        simp [hne, placeOf_nvm hvb hvm, placeOf_vm hva hvm', hy]
      · have heq : vb.placement = va.placement := by
          cases hvb' : vb.placement <;> cases hva' : va.placement <;> simp_all
        simp [heq, hvm', placeOf_nvm hvb hvm, placeOf_nvm hva hvm']

/-- **Compatible allocations** have compatible places. -/
theorem isCompatibleWith_iff (ha : a.WellFormed state) (hb : b.WellFormed state) :
    isCompatibleWith a b state = true ↔ ∀ v w p q, a.placeOf v = some p → b.placeOf w = some q →
      state.PlacesCompatible v w p q := by
  rw [isCompatibleWith, Bool.and_eq_true, isCompatibleOneWay_iff ha hb,
    isCompatibleOneWay_iff hb ha]
  constructor
  · rintro ⟨hab, -⟩ v w p q hp hq
    refine ⟨?_, fun hne x hx y hy => ?_⟩
    · rintro rfl
      exact (hab v q hq).1 p hp
    · obtain rfl := Option.mem_def.mp hx
      obtain rfl := Option.mem_def.mp hy
      -- a variable that the first allocation has as well is one of its own
      cases hw : a.placeOf w with
      | none => exact ((hab w _ hq).2 hw y rfl v x hp).symm
      | some q =>
        rw [(hab w _ hq).1 q hw] at hw
        exact ha.disjoint v w hne x y hp hw
  · intro h
    refine ⟨fun v p hp => ⟨fun q hq => (h v v q p hq hp).1 rfl, fun hnone x hx w y hw => ?_⟩,
      fun v p hp => ⟨fun q hq => ((h v v p q hp hq).1 rfl).symm, fun hnone x hx w y hw => ?_⟩⟩
    · have hne : w ≠ v := by
        rintro rfl
        rw [hw] at hnone
        cases hnone
      exact ((h w v _ p hw hp).2 hne y rfl x hx).symm
    · have hne : v ≠ w := by
        rintro rfl
        rw [hw] at hnone
        cases hnone
      exact (h v w p _ hp hw).2 hne x hx y rfl

end Places

/-! ### Merging -/

section Merge

variable {state : SchematicStateAnalysis}

/-- A merge under way: what is joined is well formed, and its ranges are the occupied ones. -/
private structure Joined (state : SchematicStateAnalysis)
    (acc : RegionAllocation × List (ℕ × ℕ)) : Prop where
  wellFormed : acc.1.WellFormed state
  mem_occupied : ∀ r, r ∈ acc.2 ↔ ∃ v x, acc.1.placeOf v = some (some x) ∧ r = state.rangeAt v x

/-- The place of an entry of an allocation. -/
private def entryPlace (p : RegionAllocation × Value × VariableAllocation) : Option ℕ :=
  if p.2.2.placement = .vm then p.1.vmOffsets.lookup p.2.1 else none

/-- The entry belongs to its allocation, and has an offset if it is in VM. -/
private def IsEntry (p : RegionAllocation × Value × VariableAllocation) : Prop :=
  p.2.2.placement = .vm → ∃ x, p.1.vmOffsets.lookup p.2.1 = some x

/-- A place that is added to those of an allocation. -/
private def AddsPlace (result result' : RegionAllocation) (v : Value) (p : Option ℕ) : Prop :=
  ∀ w q, result'.placeOf w = some q ↔ result.placeOf w = some q ∨ w = v ∧ q = p

private theorem addsPlace_of {result result' : RegionAllocation} {v : Value} {p : Option ℕ}
    (hv : result.placeOf v = none) (hp : result'.placeOf v = some p)
    (hother : ∀ w, w ≠ v → result'.placeOf w = result.placeOf w) :
    AddsPlace result result' v p := by
  intro w q
  by_cases hwv : w = v
  · subst hwv
    rw [hp, hv]
    simp [eq_comm]
  · simp [hother w hwv, hwv]

/-- A new place that is compatible with the others. -/
private theorem Joined.insert {acc : RegionAllocation × List (ℕ × ℕ)} (h : Joined state acc)
    {v : Value} {p : Option ℕ} (hv : acc.1.placeOf v = none)
    (hp : ∀ w q, acc.1.placeOf w = some q → state.PlacesCompatible v w p q)
    {result : RegionAllocation} {occupied : List (ℕ × ℕ)} (hresult : AddsPlace acc.1 result v p)
    (hoffset : ∀ w wa, result.vars.lookup w = some wa → wa.placement = .vm →
      ∃ x, result.vmOffsets.lookup w = some x)
    (hoccupied : ∀ r, r ∈ occupied ↔ r ∈ acc.2 ∨ ∃ x ∈ p, r = state.rangeAt v x) :
    Joined state (result, occupied) := by
  refine ⟨⟨hoffset, fun w w' hne x y hx hy => ?_⟩, fun r => ?_⟩
  · rcases (hresult w _).mp hx with hx | ⟨rfl, hx⟩
    · rcases (hresult w' _).mp hy with hy | ⟨rfl, hy⟩
      · exact h.wellFormed.disjoint w w' hne x y hx hy
      · exact ((hp w _ hx).2 hne.symm y hy.symm x rfl).symm
    · rcases (hresult w' _).mp hy with hy | ⟨rfl, -⟩
      · exact (hp w' _ hy).2 hne x hx.symm y rfl
      · exact absurd rfl hne
  · rw [hoccupied, h.mem_occupied]
    constructor
    · rintro (⟨w, x, hw, rfl⟩ | ⟨x, hx, rfl⟩)
      · exact ⟨w, x, (hresult w _).mpr (.inl hw), rfl⟩
      · exact ⟨v, x, (hresult v _).mpr (.inr ⟨rfl, (Option.mem_def.mp hx).symm⟩), rfl⟩
    · rintro ⟨w, x, hw, rfl⟩
      rcases (hresult w _).mp hw with hw | ⟨rfl, hx⟩
      · exact .inl ⟨w, x, hw, rfl⟩
      · exact .inr ⟨x, hx.symm, rfl⟩

/-- A variable that is there already has to be in the same place. -/
private theorem addNewVarAlloc_existing {acc : RegionAllocation × List (ℕ × ℕ)}
    (h : Joined state acc) {p : RegionAllocation × Value × VariableAllocation} (hp : IsEntry p)
    {q : Option ℕ} (hq : acc.1.placeOf p.2.1 = some q) :
    addNewVarAlloc state true p.1 acc p.2 = if entryPlace p = q then some acc else none := by
  obtain ⟨source, v, va⟩ := p
  obtain ⟨vb, hvb, hplace⟩ := Option.map_eq_some_iff.mp hq
  simp only [addNewVarAlloc, hvb, entryPlace]
  by_cases hvm : va.placement = .vm
  · obtain ⟨x, hx⟩ := hp hvm
    simp only at hx
    by_cases hvm' : vb.placement = .vm
    · obtain ⟨y, hy⟩ := h.wellFormed.offset v vb hvb hvm'
      rw [if_pos hvm', hy] at hplace
      subst hplace
      by_cases hxy : x = y
      · simp [hvm, hvm', hx, hy, hxy]
      · simp [hvm, hvm', hx, hy, hxy, Ne.symm hxy]
    · rw [if_neg hvm'] at hplace
      subst hplace
      simp [hvm, hvm', hx]
  · by_cases hvm' : vb.placement = .vm
    · obtain ⟨y, hy⟩ := h.wellFormed.offset v vb hvb hvm'
      rw [if_pos hvm', hy] at hplace
      subst hplace
      have hne : vb.placement ≠ va.placement := fun heq => hvm (heq ▸ hvm')
      simp [hne, hvm]
    · rw [if_neg hvm'] at hplace
      subst hplace
      have heq : vb.placement = va.placement := by
        cases hvb' : vb.placement <;> cases hva' : va.placement <;> simp_all
      simp [heq, hvm]

/-- A new variable takes its place if nothing else is there. -/
private theorem addNewVarAlloc_new {acc : RegionAllocation × List (ℕ × ℕ)} (h : Joined state acc)
    {p : RegionAllocation × Value × VariableAllocation} (hp : IsEntry p)
    (hv : acc.1.placeOf p.2.1 = none) :
    ((∃ acc', addNewVarAlloc state true p.1 acc p.2 = some acc') ↔
      ∀ w q, acc.1.placeOf w = some q → state.PlacesCompatible p.2.1 w (entryPlace p) q) ∧
    ∀ acc', addNewVarAlloc state true p.1 acc p.2 = some acc' →
      Joined state acc' ∧ AddsPlace acc.1 acc'.1 p.2.1 (entryPlace p) := by
  obtain ⟨result, occupied⟩ := acc
  obtain ⟨source, v, va⟩ := p
  have hnone := placeOf_eq_none.mp hv
  have hne : ∀ {w q}, result.placeOf w = some q → v ≠ w := by
    rintro w q hw rfl
    exact absurd (hw.symm.trans hv) (by simp)
  by_cases hvm : va.placement = .vm
  · obtain ⟨x, hx⟩ := hp hvm
    simp only at hx hv
    have hplace : entryPlace (source, v, va) = some x := by simp [entryPlace, hvm, hx]
    rw [hplace]
    -- the range is tested against the occupied ones
    have hfree : (∀ w q, result.placeOf w = some q → state.PlacesCompatible v w (some x) q) ↔
        ¬(occupied.any fun r => decide (x < r.2) &&
          decide (r.1 < (x + state.getVarSizeBytes v) % 2 ^ 32)) = true := by
      simp only [List.any_eq_true, Bool.and_eq_true, decide_eq_true_eq, not_exists, not_and, not_lt]
      constructor
      · intro hall r hr hlt
        obtain ⟨w, y, hw, rfl⟩ := (h.mem_occupied r).mp hr
        exact ((hall w _ hw).2 (hne hw) x rfl y rfl).resolve_right (not_le.mpr hlt)
      · intro hall w q hw
        refine ⟨fun heq => absurd heq (hne hw), fun _ x' hx' y hy => ?_⟩
        obtain rfl := Option.some.inj hx'
        obtain rfl := Option.mem_def.mp hy
        rcases Nat.lt_or_ge x (state.rangeAt w y).2 with hlt | hge
        · exact .inl (hall _ ((h.mem_occupied _).mpr ⟨w, y, hw, rfl⟩) hlt)
        · exact .inr hge
    simp only [addNewVarAlloc, hnone, hvm, hx, Bool.not_true, Bool.and_false, if_true]
    by_cases hany : (occupied.any fun r => decide (x < r.2) &&
        decide (r.1 < (x + state.getVarSizeBytes v) % 2 ^ 32)) = true
    · simp only [if_pos hany]
      exact ⟨iff_of_false (by simp) fun hall => hfree.mp hall hany, by simp⟩
    · simp only [if_neg hany, Bool.false_eq_true, if_false]
      refine ⟨iff_of_true ⟨_, rfl⟩ (hfree.mpr hany), ?_⟩
      rintro acc' hacc'
      obtain rfl := Option.some.inj hacc'
      have hadds : AddsPlace result { result with
          vars := result.vars.insert v va
          vmOffsets := result.vmOffsets.insert v x } v (some x) := by
        refine addsPlace_of hv (by simp [RegionAllocation.placeOf, hvm]) fun w hw => ?_
        simp [RegionAllocation.placeOf, AList.lookup_insert_ne hw]
      refine ⟨h.insert hv (hfree.mpr hany) hadds (fun w wa hw hvm => ?_) fun r => ?_, hadds⟩
      · by_cases hwv : w = v
        · exact ⟨x, by rw [hwv, AList.lookup_insert]⟩
        · rw [AList.lookup_insert_ne hwv] at hw ⊢
          exact h.wellFormed.offset w wa hw hvm
      · simp [rangeAt]
  · have hplace : entryPlace (source, v, va) = none := by simp [entryPlace, hvm]
    have hcompatible : ∀ w q, result.placeOf w = some q → state.PlacesCompatible v w none q :=
      fun w q hw => ⟨fun heq => absurd heq (hne hw), by simp⟩
    rw [hplace]
    simp only [addNewVarAlloc, hnone, hvm, if_false]
    refine ⟨iff_of_true ⟨_, rfl⟩ hcompatible, ?_⟩
    rintro acc' hacc'
    obtain rfl := Option.some.inj hacc'
    have hadds : AddsPlace result { result with vars := result.vars.insert v va } v none := by
      refine addsPlace_of hv (by simp [RegionAllocation.placeOf, hvm]) fun w hw => ?_
      simp [RegionAllocation.placeOf, AList.lookup_insert_ne hw]
    refine ⟨h.insert hv hcompatible hadds (fun w wa hw hvm' => ?_) (by simp), hadds⟩
    by_cases hwv : w = v
    · rw [hwv, AList.lookup_insert] at hw
      exact absurd (Option.some.inj hw ▸ hvm') hvm
    · rw [AList.lookup_insert_ne hwv] at hw
      exact h.wellFormed.offset w wa hw hvm'

/-- **One variable**: it is added if its place is compatible with those that are there. -/
private theorem addNewVarAlloc_iff {acc : RegionAllocation × List (ℕ × ℕ)} (h : Joined state acc)
    {p : RegionAllocation × Value × VariableAllocation} (hp : IsEntry p) :
    ((∃ acc', addNewVarAlloc state true p.1 acc p.2 = some acc') ↔
      ∀ w q, acc.1.placeOf w = some q → state.PlacesCompatible p.2.1 w (entryPlace p) q) ∧
    ∀ acc', addNewVarAlloc state true p.1 acc p.2 = some acc' →
      Joined state acc' ∧ AddsPlace acc.1 acc'.1 p.2.1 (entryPlace p) := by
  cases hq : acc.1.placeOf p.2.1 with
  | none => exact addNewVarAlloc_new h hp hq
  | some q =>
    rw [addNewVarAlloc_existing h hp hq]
    by_cases heq : entryPlace p = q
    · rw [if_pos heq]
      refine ⟨iff_of_true ⟨acc, rfl⟩ fun w q' hw => ?_, ?_⟩
      · rw [heq]
        exact h.wellFormed.placesCompatible hq hw
      · rintro acc' hacc'
        obtain rfl := Option.some.inj hacc'
        refine ⟨h, fun w q' => ⟨.inl, ?_⟩⟩
        rintro (hw | ⟨rfl, rfl⟩)
        · exact hw
        · rw [hq, heq]
    · rw [if_neg heq]
      exact ⟨iff_of_false (by simp) fun hall => heq ((hall _ q hq).1 rfl), by simp⟩

/-- **Some variables**: they are added if their places are compatible with those that are there and
with each other. -/
private theorem foldlM_addNewVarAlloc_iff
    {ps : List (RegionAllocation × Value × VariableAllocation)} (hps : ∀ p ∈ ps, IsEntry p)
    {acc : RegionAllocation × List (ℕ × ℕ)} (h : Joined state acc) :
    ((∃ acc', ps.foldlM (fun acc p => addNewVarAlloc state true p.1 acc p.2) acc = some acc') ↔
      (∀ p ∈ ps, ∀ w q, acc.1.placeOf w = some q →
        state.PlacesCompatible p.2.1 w (entryPlace p) q) ∧
      ps.Pairwise fun p p' =>
        state.PlacesCompatible p.2.1 p'.2.1 (entryPlace p) (entryPlace p')) ∧
    ∀ acc', ps.foldlM (fun acc p => addNewVarAlloc state true p.1 acc p.2) acc = some acc' →
      Joined state acc' ∧ ∀ w q, acc'.1.placeOf w = some q ↔
        acc.1.placeOf w = some q ∨ ∃ p ∈ ps, w = p.2.1 ∧ q = entryPlace p := by
  induction ps generalizing acc with
  | nil =>
    refine ⟨iff_of_true ⟨acc, rfl⟩ (by simp), fun acc' hacc' => ?_⟩
    obtain rfl := Option.some.inj hacc'
    exact ⟨h, by simp⟩
  | cons p ps ih =>
    obtain ⟨hp, hps⟩ := List.forall_mem_cons.mp hps
    obtain ⟨hstep, hadded⟩ := addNewVarAlloc_iff h hp
    simp only [List.foldlM_cons]
    cases hmid : addNewVarAlloc state true p.1 acc p.2 with
    | none =>
      -- the first entry fails against what is there
      have hfails : ¬∀ w q, acc.1.placeOf w = some q →
          state.PlacesCompatible p.2.1 w (entryPlace p) q := by
        rw [← hstep, hmid]
        simp
      exact ⟨iff_of_false (by simp) fun hall => hfails (List.forall_mem_cons.mp hall.1).1,
        by simp⟩
    | some mid =>
      obtain ⟨hjoined, hplaces⟩ := hadded mid hmid
      obtain ⟨hrest, hresult⟩ := ih hps hjoined
      simp only [Option.bind_eq_bind, Option.bind_some]
      refine ⟨hrest.trans ?_, fun acc' hacc' => ?_⟩
      · rw [List.forall_mem_cons, List.pairwise_cons]
        constructor
        · rintro ⟨hall, hpairs⟩
          exact ⟨⟨hstep.mp ⟨mid, hmid⟩, fun p' hp' w q hw =>
            hall p' hp' w q ((hplaces w q).mpr (.inl hw))⟩, fun p' hp' =>
            placesCompatible_comm.mp (hall p' hp' _ _ ((hplaces _ _).mpr (.inr ⟨rfl, rfl⟩))),
            hpairs⟩
        · rintro ⟨⟨-, hall⟩, hfirst, hpairs⟩
          refine ⟨fun p' hp' w q hw => ?_, hpairs⟩
          rcases (hplaces w q).mp hw with hw | ⟨rfl, rfl⟩
          · exact hall p' hp' w q hw
          · exact placesCompatible_comm.mp (hfirst p' hp')
      · obtain ⟨hjoined', hplaces'⟩ := hresult acc' hacc'
        refine ⟨hjoined', fun w q => ?_⟩
        rw [hplaces', hplaces]
        simp only [or_assoc, List.mem_cons, or_and_right, exists_or, exists_eq_left]

/-- The entries of an allocation. -/
private def entries (source : RegionAllocation) :
    List (RegionAllocation × Value × VariableAllocation) :=
  source.vars.walk.map fun e => (source, e)

/-- The entries are the places. -/
private theorem exists_entries_iff (source : RegionAllocation) {f : Value → Option ℕ → Prop} :
    (∃ p ∈ entries source, f p.2.1 (entryPlace p)) ↔
      ∃ v p, source.placeOf v = some p ∧ f v p := by
  constructor
  · rintro ⟨p, hp, hf⟩
    obtain ⟨e, he, rfl⟩ := List.mem_map.mp hp
    have hv := ValueMap.mem_walk.mp he
    refine ⟨e.1, _, ?_, hf⟩
    rw [RegionAllocation.placeOf, hv]
    rfl
  · rintro ⟨v, p, hp, hf⟩
    obtain ⟨va, hva, rfl⟩ := Option.map_eq_some_iff.mp hp
    exact ⟨(source, v, va), List.mem_map.mpr ⟨(v, va), ValueMap.mem_walk.mpr hva, rfl⟩, hf⟩

private theorem forall_entries_iff {source : RegionAllocation} {f : Value → Option ℕ → Prop} :
    (∀ p ∈ entries source, f p.2.1 (entryPlace p)) ↔
      ∀ v p, source.placeOf v = some p → f v p := by
  have h := not_congr (exists_entries_iff source (f := fun v p => ¬f v p))
  push Not at h
  exact h

/-- Two allocations are compatible if their entries are. -/
private theorem entries_compatible {a b : RegionAllocation} (ha : a.WellFormed state)
    (hb : b.WellFormed state) :
    (∀ p ∈ entries a, ∀ p' ∈ entries b,
      state.PlacesCompatible p.2.1 p'.2.1 (entryPlace p) (entryPlace p')) ↔
    isCompatibleWith a b state = true := by
  rw [isCompatibleWith_iff ha hb, forall_entries_iff (f := fun v p => ∀ p' ∈ entries b,
    state.PlacesCompatible v p'.2.1 p (entryPlace p'))]
  constructor
  · intro h v w p q hp hq
    exact forall_entries_iff (f := fun w q => state.PlacesCompatible v w p q).mp (h v p hp) w q hq
  · intro h v p hp
    exact forall_entries_iff (f := fun w q => state.PlacesCompatible v w p q).mpr
      fun w q hq => h v w p q hp hq

private theorem isCompatibleWith_comm {a b : RegionAllocation} :
    isCompatibleWith a b state = isCompatibleWith b a state := Bool.and_comm _ _

private theorem isCompatibleWith_self {a : RegionAllocation} (ha : a.WellFormed state) :
    isCompatibleWith a a state = true :=
  (isCompatibleWith_iff ha ha).mpr fun _ _ _ _ hp hq => ha.placesCompatible hp hq

/-- **What a merge does**: it succeeds if all places are compatible, and then has just these. -/
private theorem mergeAllocations_iff {l : List RegionAllocation}
    (hl : ∀ a ∈ l, a.WellFormed state) :
    ((mergeAllocations l state true).isSome = true ↔
      l.Pairwise fun a b => isCompatibleWith a b state = true) ∧
    ∀ m, mergeAllocations l state true = some m → m.WellFormed state ∧
      ∀ v p, m.placeOf v = some p ↔ ∃ a ∈ l, a.placeOf v = some p := by
  cases l with
  | nil =>
    refine ⟨by simp [mergeAllocations], fun m hm => ?_⟩
    obtain rfl : {} = m := Option.some.inj hm
    exact ⟨⟨by simp, by simp [RegionAllocation.placeOf]⟩, by simp [RegionAllocation.placeOf]⟩
  | cons first rest =>
    obtain ⟨hfirst, hrest⟩ := List.forall_mem_cons.mp hl
    have hjoined : Joined state (first, first.occupied state) := ⟨hfirst, fun r => mem_occupied⟩
    have hentries : ∀ p ∈ rest.flatMap entries, IsEntry p := by
      intro p hp hvm
      obtain ⟨a, ha, hp⟩ := List.mem_flatMap.mp hp
      obtain ⟨e, he, rfl⟩ := List.mem_map.mp hp
      exact (hrest a ha).offset e.1 e.2 (ValueMap.mem_walk.mp he) hvm
    obtain ⟨hsuccess, hresult⟩ := foldlM_addNewVarAlloc_iff hentries hjoined
    have hmerge : mergeAllocations (first :: rest) state true =
        ((rest.flatMap entries).foldlM (fun acc p => addNewVarAlloc state true p.1 acc p.2)
          (first, first.occupied state)).map Prod.fst := rfl
    rw [hmerge]
    refine ⟨?_, fun m hm => ?_⟩
    · rw [Option.isSome_map, Option.isSome_iff_exists, hsuccess, List.pairwise_cons,
        List.pairwise_flatMap]
      refine and_congr ?_ ?_
      · rw [List.forall_mem_flatMap]
        refine forall₂_congr fun b hb => ?_
        rw [isCompatibleWith_comm, isCompatibleWith_iff (hrest b hb) hfirst,
          forall_entries_iff (f := fun v p => ∀ w q, first.placeOf w = some q →
            state.PlacesCompatible v w p q)]
        exact ⟨fun h v w p q hp hq => h v p hp w q hq, fun h v p hp w q hq => h v w p q hp hq⟩
      · -- entries of one allocation are compatible anyway
        rw [and_iff_right_of_imp fun _ b hb => List.pairwise_of_forall_mem_list
          ((entries_compatible (hrest b hb) (hrest b hb)).mpr
            (isCompatibleWith_self (hrest b hb)))]
        exact List.Pairwise.iff_of_mem fun {a b} ha hb =>
          entries_compatible (hrest a ha) (hrest b hb)
    · obtain ⟨acc, hacc, rfl⟩ := Option.map_eq_some_iff.mp hm
      obtain ⟨hjoined', hplaces⟩ := hresult acc hacc
      refine ⟨hjoined'.wellFormed, fun v p => ?_⟩
      rw [hplaces]
      simp only [List.mem_cons, or_and_right, exists_or, exists_eq_left]
      refine or_congr Iff.rfl ?_
      constructor
      · rintro ⟨e, he, rfl, rfl⟩
        obtain ⟨a, ha, he⟩ := List.mem_flatMap.mp he
        obtain ⟨w, q, hq, rfl, rfl⟩ := (exists_entries_iff a
          (f := fun w q => w = e.2.1 ∧ q = entryPlace e)).mp ⟨e, he, rfl, rfl⟩
        exact ⟨a, ha, hq⟩
      · rintro ⟨a, ha, hp⟩
        obtain ⟨e, he, rfl, rfl⟩ := (exists_entries_iff a
          (f := fun w q => v = w ∧ p = q)).mpr ⟨v, p, hp, rfl, rfl⟩
        exact ⟨e, List.mem_flatMap.mpr ⟨a, ha, he⟩, rfl, rfl⟩

/-- **Merging agrees with the compatibility check.** Well-formed allocations can be merged if and
only if they are pairwise compatible. The result mentions just the variables of the allocations,
with the placement and the VM offset they have there, in disjoint ranges; the order of the
allocations makes no difference. -/
theorem mergeAllocations_agrees_with_isCompatibleWith {state : SchematicStateAnalysis}
    {l : List RegionAllocation} (hl : ∀ a ∈ l, a.WellFormed state) :
    ((mergeAllocations l state true).isSome = true ↔
      l.Pairwise fun a b => isCompatibleWith a b state = true) ∧
    (∀ m, mergeAllocations l state true = some m →
      (∀ v, v ∈ m.vars ↔ ∃ a ∈ l, v ∈ a.vars) ∧
      (∀ a ∈ l, ∀ v va, a.vars.lookup v = some va → ∃ vm, m.vars.lookup v = some vm ∧
        vm.placement = va.placement ∧
        (va.placement = .vm → m.vmOffsets.lookup v = a.vmOffsets.lookup v)) ∧
      m.WellFormed state) ∧
    ∀ l', l.Perm l' →
      (mergeAllocations l' state true).isSome = (mergeAllocations l state true).isSome ∧
      ∀ m m', mergeAllocations l state true = some m → mergeAllocations l' state true = some m' →
        ∀ v, (m.vars.lookup v).map VariableAllocation.placement =
            (m'.vars.lookup v).map VariableAllocation.placement ∧
          ((m.vars.lookup v).map VariableAllocation.placement = some .vm →
            m.vmOffsets.lookup v = m'.vmOffsets.lookup v) := by
  obtain ⟨hsuccess, hresult⟩ := mergeAllocations_iff hl
  refine ⟨hsuccess, fun m hm => ?_, fun l' hperm => ?_⟩
  · obtain ⟨hm, hplaces⟩ := hresult m hm
    refine ⟨fun v => ?_, fun a ha v va hv => ?_, hm⟩
    · simp only [mem_vars_iff, hplaces]
      exact ⟨fun ⟨p, a, ha, hp⟩ => ⟨a, ha, p, hp⟩, fun ⟨a, ha, p, hp⟩ => ⟨p, a, ha, hp⟩⟩
    · obtain ⟨p, hp⟩ := mem_vars_iff.mp (AList.lookup_isSome.mp (by rw [hv]; rfl) : v ∈ a.vars)
      obtain ⟨va', vm, hva', hvm, hagree⟩ :=
        (hl a ha).agree hm hp ((hplaces v p).mpr ⟨a, ha, hp⟩)
      obtain rfl := Option.some.inj (hv.symm.trans hva')
      exact ⟨vm, hvm, hagree⟩
  · have hl' : ∀ a ∈ l', a.WellFormed state := fun a ha => hl a (hperm.mem_iff.mpr ha)
    obtain ⟨hsuccess', hresult'⟩ := mergeAllocations_iff hl'
    refine ⟨?_, fun m m' hm hm' v => ?_⟩
    · rw [Bool.eq_iff_iff, hsuccess, hsuccess']
      refine (hperm.pairwise_iff fun {a b} h => ?_).symm
      rwa [isCompatibleWith_comm]
    · obtain ⟨hm, hplaces⟩ := hresult m hm
      obtain ⟨hm', hplaces'⟩ := hresult' m' hm'
      -- both results have the places of the inputs, whatever their order
      have hsame : ∀ p, m.placeOf v = some p ↔ m'.placeOf v = some p := fun p => by
        rw [hplaces, hplaces']
        exact exists_congr fun a => and_congr_left' hperm.mem_iff
      cases hp : m.placeOf v with
      | none =>
        have hp' : m'.placeOf v = none :=
          Option.eq_none_iff_forall_ne_some.mpr fun p h => by simp [hp] at hsame; exact hsame p h
        rw [placeOf_eq_none.mp hp, placeOf_eq_none.mp hp']
        exact ⟨rfl, by simp⟩
      | some p =>
        obtain ⟨va, va', hva, hva', hplacement, hoffset⟩ := hm.agree hm' hp ((hsame p).mp hp)
        rw [hva, hva', Option.map_some, Option.map_some, hplacement]
        exact ⟨rfl, fun hvm => (hoffset (Option.some.inj hvm)).symm⟩

end Merge

/-- An allocation with one VM variable. -/
def singleVM (v : Value) (x : ℕ) : RegionAllocation :=
  { vars := AList.insert v ⟨.vm, true, true⟩ ∅
    vmOffsets := AList.insert v x ∅ }

theorem wellFormed_singleVM (state : SchematicStateAnalysis) (v : Value) (x : ℕ) :
    (singleVM v x).WellFormed state := by
  have hlookup : ∀ w, w ≠ v → (singleVM v x).placeOf w = none := fun w hw => by
    rw [placeOf_eq_none, singleVM, AList.lookup_insert_ne hw, AList.lookup_empty]
  refine ⟨fun w wa hwa _ => ?_, fun w w' hne y y' hw hw' => ?_⟩
  · by_cases hw : w = v
    · exact ⟨x, by rw [hw, singleVM, AList.lookup_insert]⟩
    · rw [placeOf_eq_none.mp (hlookup w hw)] at hwa
      cases hwa
  · by_cases h : w = v
    · rw [hlookup w' (fun h' => hne (h.trans h'.symm))] at hw'
      cases hw'
    · rw [hlookup w h] at hw
      cases hw

/-- All variables have two bytes. -/
def twoByteState : SchematicStateAnalysis :=
  ⟨[], fun _ _ => 0, fun _ _ => 0, fun _ _ => none, fun _ => 2, fun _ => false⟩

/-- Variables at adjacent addresses can be merged and are compatible; at one address they cannot
and are not. -/
theorem mergeAllocations_agrees_adjacent :
    ([singleVM ⟨0, true⟩ 0, singleVM ⟨1, true⟩ 2].Pairwise fun a b =>
      isCompatibleWith a b twoByteState = true) ∧
    ¬[singleVM ⟨0, true⟩ 0, singleVM ⟨1, true⟩ 0].Pairwise fun a b =>
      isCompatibleWith a b twoByteState = true := by
  have hwellFormed : ∀ x, ∀ a ∈ [singleVM ⟨0, true⟩ 0, singleVM ⟨1, true⟩ x],
      a.WellFormed twoByteState := fun x a ha => by
    rcases List.mem_pair.mp ha with rfl | rfl
    · exact wellFormed_singleVM _ _ _
    · exact wellFormed_singleVM _ _ _
  refine ⟨(mergeAllocations_agrees_with_isCompatibleWith (hwellFormed 2)).1.mp (by decide +kernel),
    fun h => absurd ((mergeAllocations_agrees_with_isCompatibleWith (hwellFormed 0)).1.mpr h)
      (by decide +kernel)⟩

end Bao.Schematic
