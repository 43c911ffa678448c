import Bao.Addressing.Stack
import Bao.Schematic.Extension

/-!
# Addresses in VM

`chooseMemoryAllocation` hands out VM addresses while it costs an interval, and the tracker keeps
them whether the interval is taken or not. Two things follow from what one call does.

* The tracker is a stack of variables that fits into the capacity (`VMAddressTracker.Fits`), and
  addresses are never taken back (`VMAddressTracker.ExtendedBy`).
* A variable that is in VM afterwards was in VM in one of the allocations the call was given, or it
  has an address and the offset is that address. This is stated for any property of VM variables and
  their offsets (`RegionAllocation.ForVM`).
-/

namespace Bao.Schematic

open Addressing RegionAllocation

/-! ### VM variables -/

/-- **A property of all VM variables of an allocation** and of the offsets stored for them. -/
def RegionAllocation.ForVM (Q : Value → Option ℕ → Prop) (a : RegionAllocation) : Prop :=
  ∀ v va, a.vars.lookup v = some va → va.placement = .vm → Q v (a.vmOffsets.lookup v)

namespace RegionAllocation

variable {Q Q' : Value → Option ℕ → Prop} {a r : RegionAllocation}

theorem forVM_empty : ForVM Q {} := by
  intro v va h
  simp at h

theorem ForVM.imp (h : a.ForVM Q) (hQ : ∀ v o, Q v o → Q' v o) : a.ForVM Q' :=
  fun v va hv hvm => hQ v _ (h v va hv hvm)

/-- A further variable, with its offset. -/
theorem ForVM.insert (h : a.ForVM Q) {v : Value} {va : VariableAllocation}
    (hvars : r.vars = a.vars.insert v va)
    (hoffsets : ∀ w, w ≠ v → r.vmOffsets.lookup w = a.vmOffsets.lookup w)
    (hv : va.placement = .vm → Q v (r.vmOffsets.lookup v)) : r.ForVM Q := by
  intro w wa hw hvm
  rw [hvars] at hw
  by_cases hwv : w = v
  · subst hwv
    rw [AList.lookup_insert, Option.some.injEq] at hw
    subst hw
    exact hv hvm
  · rw [AList.lookup_insert_ne hwv] at hw
    rw [hoffsets w hwv]
    exact h w wa hw hvm

end RegionAllocation

/-- A property that does not need an offset holds for any offset. -/
def OffsetOptional (Q : Value → Option ℕ → Prop) : Prop := ∀ v o, Q v none → Q v o

section Merge

variable {Q : Value → Option ℕ → Prop} (hQ : OffsetOptional Q)
include hQ

/-- An extension of an allocation; only the variables that are added matter. -/
theorem forVM_extendsAllocation {target source : RegionAllocation} (ht : target.ForVM Q)
    (hs : ∀ v va, source.vars.lookup v = some va → va.placement = .vm → v ∉ target.vars →
      Q v (source.vmOffsets.lookup v)) : (extendsAllocation target source).ForVM Q := by
  rw [extendsAllocation]
  refine (List.foldlRecOn (motive := fun t : RegionAllocation => t.ForVM Q ∧
    ∀ v ∈ target.vars, v ∈ t.vars) source.vars.walk _ ⟨ht, fun v hv => hv⟩ ?_).1
  rintro t ⟨ht, hgrow⟩ e he
  have hsource := hs e.1 e.2 (ValueMap.mem_walk.mp he)
  by_cases hmem : e.1 ∈ t.vars
  · rw [if_pos hmem]
    exact ⟨ht, hgrow⟩
  · -- new to the loop, so new to the target it started from
    have hnew : e.1 ∉ target.vars := fun h => hmem (hgrow e.1 h)
    have hgrow' : ∀ v ∈ target.vars, v ∈ t.vars.insert e.1 e.2 := fun v hv =>
      (AList.mem_insert _).mpr (.inr (hgrow v hv))
    rw [if_neg hmem]
    dsimp only
    by_cases hvm : e.2.placement = .vm
    · rw [if_pos hvm]
      cases hoff : source.vmOffsets.lookup e.1 with
      | none =>
        rw [hoff] at hsource
        exact ⟨ht.insert rfl (fun w _ => rfl) fun _ => hQ _ _ (hsource hvm hnew), hgrow'⟩
      | some off =>
        refine ⟨ht.insert rfl (fun w hw => AList.lookup_insert_ne hw) fun _ => ?_, hgrow'⟩
        dsimp only
        rw [AList.lookup_insert, ← hoff]
        exact hsource hvm hnew
    · rw [if_neg hvm]
      exact ⟨ht.insert rfl (fun w _ => rfl) fun h => absurd h hvm, hgrow'⟩

/-- One variable of a merge. -/
private theorem forVM_addNewVarAlloc {state : SchematicStateAnalysis} {increase : Bool}
    {source : RegionAllocation} {acc acc' : RegionAllocation × List (ℕ × ℕ)}
    {e : Value × VariableAllocation} (hacc : acc.1.ForVM Q)
    (hsource : e.2.placement = .vm → Q e.1 (source.vmOffsets.lookup e.1))
    (h : addNewVarAlloc state increase source acc e = some acc') : acc'.1.ForVM Q := by
  obtain ⟨result, occupied⟩ := acc
  obtain ⟨w, wa⟩ := e
  simp only [addNewVarAlloc] at h
  cases hw : result.vars.lookup w with
  | some existing =>
    rw [hw] at h
    -- the variable is there already: the merge either fails or changes nothing
    have hsame : acc' = (result, occupied) := by
      simp only at h
      split_ifs at h
      · split at h
        · split_ifs at h
          exact (Option.some.inj h).symm
        · exact (Option.some.inj h).symm
      · exact (Option.some.inj h).symm
    rw [hsame]
    exact hacc
  | none =>
    rw [hw] at h
    by_cases hvm : wa.placement = .vm
    · simp only [hvm, ↓reduceIte] at h
      cases hoff : source.vmOffsets.lookup w with
      | some off =>
        rw [hoff] at h
        simp only at h
        split_ifs at h
        cases h
        refine hacc.insert rfl (fun w _ => AList.lookup_insert_ne ‹_›) fun _ => ?_
        dsimp only
        rw [AList.lookup_insert, ← hoff]
        exact hsource hvm
      | none =>
        rw [hoff] at h
        simp only at h
        split_ifs at h
        cases h
        exact hacc.insert rfl (fun w _ => rfl) fun _ => hQ _ _ (hoff ▸ hsource hvm)
    · simp only [hvm, ↓reduceIte] at h
      cases h
      exact hacc.insert rfl (fun w _ => rfl) fun hw => absurd hw hvm

/-- **A merge** has no other VM variables than its inputs. -/
theorem forVM_mergeAllocations {state : SchematicStateAnalysis} {increase : Bool}
    {l : List RegionAllocation} {m : RegionAllocation} (hl : ∀ a ∈ l, a.ForVM Q)
    (h : mergeAllocations l state increase = some m) : m.ForVM Q := by
  cases l with
  | nil =>
    cases h
    exact forVM_empty
  | cons first rest =>
    obtain ⟨acc, hacc, rfl⟩ := Option.map_eq_some_iff.mp h
    obtain ⟨hfirst, hrest⟩ := List.forall_mem_cons.mp hl
    have hsources : ∀ p ∈ rest.flatMap fun source => source.vars.walk.map fun e => (source, e),
        p.2.2.placement = .vm → Q p.2.1 (p.1.vmOffsets.lookup p.2.1) := by
      intro p hp
      obtain ⟨a, ha, hp⟩ := List.mem_flatMap.mp hp
      obtain ⟨e, he, rfl⟩ := List.mem_map.mp hp
      exact hrest a ha e.1 e.2 (ValueMap.mem_walk.mp he)
    revert hacc hsources
    generalize rest.flatMap (fun source => source.vars.walk.map fun e => (source, e)) = sources
    generalize hstart : (first, first.occupied state) = start
    have hstart' : start.1.ForVM Q := hstart ▸ hfirst
    clear hstart
    induction sources generalizing start with
    | nil =>
      intro hacc _
      cases hacc
      exact hstart'
    | cons p sources ih =>
      intro hacc hsources
      rw [List.foldlM_cons] at hacc
      obtain ⟨mid, hmid, htail⟩ := Option.bind_eq_some_iff.mp hacc
      obtain ⟨hp, hsources⟩ := List.forall_mem_cons.mp hsources
      exact ih mid (forVM_addNewVarAlloc hQ hstart' hp hmid) htail hsources

/-- The allocation that an interval has to keep. -/
theorem forVM_constrainedAllocation {state : SchematicStateAnalysis}
    {startAlloc endAlloc : Option RegionAllocation} {l : List RegionAllocation}
    {c : RegionAllocation}
    (hs : ∀ a ∈ startAlloc, a.ForVM Q) (he : ∀ a ∈ endAlloc, a.ForVM Q) (hl : ∀ a ∈ l, a.ForVM Q)
    (h : constrainedAllocation state startAlloc endAlloc l = some c) : c.ForVM Q := by
  have hboundary : ∀ {boundary : Option RegionAllocation} {b m : RegionAllocation},
      (∀ a ∈ boundary, a.ForVM Q) → b.ForVM Q → mergeBoundary state boundary b = some m →
        m.ForVM Q := by
    intro boundary b m ha hb hm
    cases boundary with
    | none => exact Option.some.inj hm ▸ hb
    | some a =>
      rw [mergeBoundary] at hm
      refine forVM_mergeAllocations hQ (fun x hx => ?_) hm
      rcases List.mem_pair.mp hx with rfl | rfl
      · exact ha x rfl
      · exact hb
  obtain ⟨m₁, hm₁, h⟩ := Option.bind_eq_some_iff.mp h
  obtain ⟨m₂, hm₂, h⟩ := Option.bind_eq_some_iff.mp h
  exact hboundary he (hboundary hs (forVM_mergeAllocations hQ hl hm₁) hm₂) h

end Merge

/-! ### The tracker -/

namespace VMAddressTracker

variable {size : Value → ℕ} {capacity : ℕ} {T T' T'' : VMAddressTracker}

/-- Addresses are kept. -/
def ExtendedBy (T T' : VMAddressTracker) : Prop :=
  ∀ v a, T.getExistingAddress v = some a → T'.getExistingAddress v = some a

theorem ExtendedBy.refl (T : VMAddressTracker) : T.ExtendedBy T := fun _ _ h => h

theorem ExtendedBy.trans (h : T.ExtendedBy T') (h' : T'.ExtendedBy T'') : T.ExtendedBy T'' :=
  fun v a hv => h' v a (h v a hv)

/-- **The variables are stacked** from address zero and end within the capacity. -/
structure Fits (size : Value → ℕ) (capacity : ℕ) (T : VMAddressTracker) : Prop where
  stacked : Stacked size T.getExistingAddress T.topAddress
  top_le : T.topAddress ≤ capacity

theorem fits_empty : Fits size capacity {} := by
  refine ⟨?_, Nat.zero_le _⟩
  have hnone : getExistingAddress {} = fun _ => none := by
    funext v
    rfl
  rw [hnone]
  exact .empty

theorem getExistingAddress_recordAllocation (T : VMAddressTracker) (v : Value) (n : ℕ) :
    (T.recordAllocation v n).getExistingAddress =
      Function.update T.getExistingAddress v (some T.topAddress) := by
  funext w
  by_cases hw : w = v
  · subst hw
    rw [Function.update_self]
    exact AList.lookup_insert _
  · rw [Function.update_of_ne hw]
    exact AList.lookup_insert_ne hw

/-- A variable that is recorded anew and fits. -/
theorem Fits.recordAllocation (h : T.Fits size capacity) {v : Value}
    (hnew : T.getExistingAddress v = none) (hlt : T.topAddress + size v < 2 ^ 32)
    (hfit : T.topAddress + size v ≤ capacity) :
    (T.recordAllocation v (size v)).Fits size capacity := by
  have htop : (T.recordAllocation v (size v)).topAddress = T.topAddress + size v :=
    Nat.mod_eq_of_lt hlt
  refine ⟨?_, htop ▸ hfit⟩
  rw [htop, getExistingAddress_recordAllocation]
  exact h.stacked.push hnew

theorem extendedBy_recordAllocation {v : Value} (hnew : T.getExistingAddress v = none) (n : ℕ) :
    T.ExtendedBy (T.recordAllocation v n) := by
  intro w a hw
  rw [getExistingAddress_recordAllocation, Function.update_of_ne]
  · exact hw
  · rintro rfl
    rw [hnew] at hw
    cases hw

end VMAddressTracker

open VMAddressTracker

/-! ### Choosing an allocation -/

/-- The analysis of a function knows the sizes of its candidates; any other variable has size zero
there. -/
def SchematicStateAnalysis.Sized (size : Value → ℕ) (state : SchematicStateAnalysis) : Prop :=
  ∀ v, state.getVarSizeBytes v = if v ∈ state.candidates then size v else 0

section Choose

variable {size : Value → ℕ} {params : SchematicParams} {state : SchematicStateAnalysis}
  {accesses : ValueMap VariableAccessEstimate} {Q : Value → Option ℕ → Prop}

/-- The candidates that compete are candidates of the function. -/
private def Competes (size : Value → ℕ) (state : SchematicStateAnalysis) (k : CandidateEntry) :
    Prop :=
  k.v ∈ state.candidates ∧ k.size = size k.v

variable (params accesses) in
/-- Evaluating the candidates adds variables in NVM only. -/
private theorem forVM_evaluate (hstate : state.Sized size) (hasStart hasEnd : Bool) {l : List Value}
    (hl : ∀ v ∈ l, v ∈ state.candidates) (acc : RegionAllocation × List CandidateEntry)
    (hacc : acc.1.ForVM Q) (hcompete : ∀ k ∈ acc.2, Competes size state k) :
    (l.foldl (evaluateCandidate accesses state params hasStart hasEnd) acc).1.ForVM Q ∧
      ∀ k ∈ (l.foldl (evaluateCandidate accesses state params hasStart hasEnd) acc).2,
        Competes size state k := by
  induction l generalizing acc with
  | nil => exact ⟨hacc, hcompete⟩
  | cons v l ih =>
    obtain ⟨hv, hl⟩ := List.forall_mem_cons.mp hl
    obtain ⟨result, candidates⟩ := acc
    have hstep : (evaluateCandidate accesses state params hasStart hasEnd
      (result, candidates) v).1.ForVM
          Q ∧ ∀ k ∈ (evaluateCandidate accesses state params hasStart hasEnd
            (result, candidates) v).2, Competes size state k := by
      simp only [evaluateCandidate]
      by_cases hmem : v ∈ result.vars
      · rw [if_pos hmem]
        exact ⟨hacc, hcompete⟩
      · rw [if_neg hmem]
        cases accesses.lookup v with
        | none => exact ⟨hacc, hcompete⟩
        | some access =>
          dsimp only
          split_ifs
          · exact ⟨hacc, hcompete⟩
          · exact ⟨hacc.insert rfl (fun w _ => rfl) (by simp), hcompete⟩
          · refine ⟨hacc, fun k hk => ?_⟩
            rcases List.mem_append.mp hk with hk | hk
            · exact hcompete k hk
            · rw [List.mem_singleton.mp hk]
              exact ⟨hv, (hstate v).trans (if_pos hv)⟩
    exact ih hl _ hstep.1 hstep.2

variable (size params state Q) in
/-- What the greedy packing keeps, from a tracker on. -/
private structure Packed (T : VMAddressTracker) (p : Packing) : Prop where
  fits : p.tracker.Fits size params.vmCapacityBytes
  ext : T.ExtendedBy p.tracker
  curr : p.currAddress = p.tracker.topAddress
  forVM : p.result.ForVM fun v o => Q v o ∨ v ∈ state.candidates ∧
    ∃ a, p.tracker.getExistingAddress v = some a ∧ o = some a

variable (hsize : ∀ v, size v < 2 ^ 31) (hcapacity : params.vmCapacityBytes < 2 ^ 31)
include hsize hcapacity

private theorem Packed.pack {T : VMAddressTracker} {p : Packing}
    (h : Packed size params state Q T p)
    {k : CandidateEntry} (hk : Competes size state k) :
    Packed size params state Q T (p.pack params k) := by
  -- a candidate that is left out ends up in NVM
  have hnvm : Packed size params state Q T { p with result := { p.result with
      vars := p.result.vars.insert k.v ⟨.nvm, k.needRestore, k.needSave⟩ } } :=
    ⟨h.fits, h.ext, h.curr, h.forVM.insert rfl (fun w _ => rfl) (by simp)⟩
  rw [Packing.pack]
  by_cases hgain : 0 < k.gain
  · rw [if_pos hgain]
    cases hexisting : p.tracker.getExistingAddress k.v with
    | some existing =>
      refine ⟨h.fits, h.ext, h.curr, h.forVM.insert rfl (fun w hw => AList.lookup_insert_ne hw)
        fun _ => .inr ⟨hk.1, existing, hexisting, AList.lookup_insert _⟩⟩
    | none =>
      dsimp only
      have htop := h.fits.top_le
      -- top and size are below 2^31, so the 32-bit sum is exact
      have hlt : p.tracker.topAddress + size k.v < 2 ^ 32 := by
        have := hsize k.v
        omega
      rw [h.curr, hk.2, Nat.mod_eq_of_lt hlt]
      by_cases hfit : p.tracker.topAddress + size k.v ≤ params.vmCapacityBytes
      · rw [if_pos hfit]
        have hext := extendedBy_recordAllocation hexisting (size k.v)
        refine ⟨h.fits.recordAllocation hexisting hlt hfit, h.ext.trans hext,
          (Nat.mod_eq_of_lt hlt).symm, ?_⟩
        refine (h.forVM.imp fun v o hv => ?_).insert rfl (fun w hw => AList.lookup_insert_ne hw)
          fun _ => .inr ⟨hk.1, p.tracker.topAddress, ?_, AList.lookup_insert _⟩
        · rcases hv with hv | ⟨hcand, a, ha, ho⟩
          · exact .inl hv
          · exact .inr ⟨hcand, a, hext v a ha, ho⟩
        · rw [getExistingAddress_recordAllocation, Function.update_self]
      · rw [if_neg hfit, ← h.curr]
        exact hnvm
  · rw [if_neg hgain]
    exact hnvm

private theorem Packed.foldl {T : VMAddressTracker} {l : List CandidateEntry}
    (hl : ∀ k ∈ l, Competes size state k) {p : Packing} (h : Packed size params state Q T p) :
    Packed size params state Q T (l.foldl (Packing.pack params) p) := by
  induction l generalizing p with
  | nil => exact h
  | cons k l ih =>
    obtain ⟨hk, hl⟩ := List.forall_mem_cons.mp hl
    exact ih hl (h.pack hsize hcapacity hk)

variable (accesses) in
/-- **What one call does**: the tracker still fits and keeps its addresses, and a VM variable of the
result comes from the inputs or is a candidate at its recorded address. -/
theorem chooseMemoryAllocationOf_forVM (hQ : OffsetOptional Q) (hstate : state.Sized size)
    {startAlloc endAlloc : Option RegionAllocation} {allocations : List RegionAllocation}
    {T : VMAddressTracker} (hT : T.Fits size params.vmCapacityBytes)
    (hs : ∀ a ∈ startAlloc, a.ForVM Q) (he : ∀ a ∈ endAlloc, a.ForVM Q)
    (hl : ∀ a ∈ allocations, a.ForVM Q) :
    (chooseMemoryAllocationOf accesses state params startAlloc endAlloc allocations T).2.Fits size
        params.vmCapacityBytes ∧
      T.ExtendedBy
        (chooseMemoryAllocationOf accesses state params startAlloc endAlloc allocations T).2 ∧
      (chooseMemoryAllocationOf accesses state params startAlloc endAlloc allocations T).1.1.ForVM
        fun v o => Q v o ∨ v ∈ state.candidates ∧ ∃ a,
          (chooseMemoryAllocationOf accesses state params startAlloc endAlloc allocations
            T).2.getExistingAddress v = some a ∧ o = some a := by
  rw [chooseMemoryAllocationOf]
  cases hc : constrainedAllocation state startAlloc endAlloc allocations with
  | none => exact ⟨hT, .refl T, forVM_empty⟩
  | some c =>
    obtain ⟨hresult, hcompete⟩ := forVM_evaluate params accesses hstate startAlloc.isSome
      endAlloc.isSome (fun v hv => hv) (c, []) (forVM_constrainedAllocation hQ hs he hl hc)
        (by simp)
    dsimp only
    generalize state.candidates.foldl (evaluateCandidate accesses state params startAlloc.isSome
      endAlloc.isSome) (c, []) = evaluated at hresult hcompete ⊢
    have hpacked := Packed.foldl hsize hcapacity (T := T)
      (l := params.gainSort.sort evaluated.2)
      (p := ⟨evaluated.1, T.topAddress, -constrainedCost c state params, T⟩)
      (fun k hk => hcompete k ((params.gainSort.perm _).mem_iff.mp hk))
      ⟨hT, .refl T, rfl, hresult.imp fun v o hv => .inl hv⟩
    exact ⟨hpacked.fits, hpacked.ext, hpacked.forVM⟩

end Choose

end Bao.Schematic
