import Bao.Schematic.LoopAnalyzer

/-!
# How allocations grow

What the operations of the memory allocator do to the variables of an allocation: an extension adds
what is missing, a merge keeps its first input and agrees with the others on placements, and the
allocation chosen for an interval keeps what was constrained. Every allocation the pass builds marks
all its variables for saving (`SavesAll`).
-/

namespace Bao.Schematic

/-! ### Walking a map -/

namespace ValueMap

variable {ν μ : Type}

@[simp]
theorem mem_walk {m : ValueMap ν} {v : Value} {a : ν} : (v, a) ∈ m.walk ↔ m.lookup v = some a := by
  rw [walk, List.mem_insertionSort, List.mem_map]
  constructor
  · rintro ⟨⟨w, b⟩, hmem, heq⟩
    cases heq
    exact AList.mem_lookup_iff.mpr hmem
  · intro h
    exact ⟨⟨v, a⟩, AList.mem_lookup_iff.mp h, rfl⟩

/-- The first entry of a walk for a key is the one the map holds. -/
theorem find?_walk (m : ValueMap ν) (v : Value) :
    (m.walk.find? fun e => e.1 = v).map Prod.snd = m.lookup v := by
  cases h : m.walk.find? fun e => e.1 = v with
  | none =>
    rw [List.find?_eq_none] at h
    cases hv : m.lookup v with
    | none => rfl
    | some a => exact absurd (h (v, a) (mem_walk.mpr hv)) (by simp)
  | some e =>
    have hv : e.1 = v := by simpa using List.find?_some h
    have hmem := List.mem_of_find?_eq_some h
    subst hv
    exact (mem_walk.mp hmem).symm

/-- Filling in the entries of a list: what the map holds stays, and the first entry of the list
counts. -/
theorem lookup_foldl_fill (f : ν → μ) (l : List (Value × ν)) (m : ValueMap μ) (v : Value) :
    (l.foldl (fun m e => if e.1 ∈ m then m else m.insert e.1 (f e.2)) m).lookup v =
      (m.lookup v).or ((l.find? fun e => e.1 = v).map fun e => f e.2) := by
  induction l generalizing m with
  | nil => simp
  | cons e l ih =>
    rw [List.foldl_cons, ih]
    by_cases hv : e.1 = v
    · subst hv
      by_cases hm : e.1 ∈ m
      · obtain ⟨a, ha⟩ := Option.isSome_iff_exists.mp (AList.lookup_isSome.mpr hm)
        simp [hm, ha]
      · simp [hm, AList.lookup_eq_none.mpr hm]
    · rw [List.find?_cons_of_neg (by simpa using hv)]
      by_cases hm : e.1 ∈ m
      · simp [hm]
      · simp [hm, AList.lookup_insert_ne (Ne.symm hv)]

theorem nodup_walk (m : ValueMap ν) : (m.walk.map Prod.fst).Nodup := by
  have hperm : (m.walk.map Prod.fst).Perm (m.entries.map Sigma.fst) := by
    have h := ((List.perm_insertionSort (fun a b : Value × ν => a.1.address ≤ b.1.address)
      (m.entries.map fun e => (e.1, e.2))).map Prod.fst)
    rwa [List.map_map] at h
  exact hperm.nodup_iff.mpr m.nodupKeys

/-- Writing the entries of a list leaves the other keys alone. -/
theorem lookup_foldl_insert_of_notMem {f : ν → μ} {l : List (Value × ν)} {m : ValueMap μ}
    {v : Value}
    (h : ∀ e ∈ l, e.1 ≠ v) :
    (l.foldl (fun m e => m.insert e.1 (f e.2)) m).lookup v = m.lookup v := by
  induction l generalizing m with
  | nil => rfl
  | cons e l ih =>
    rw [List.foldl_cons, ih fun e' he' => h e' (List.mem_cons_of_mem _ he'),
      AList.lookup_insert_ne (Ne.symm (h e List.mem_cons_self))]

/-- Writing the entries of a list with distinct keys. -/
private theorem lookup_foldl_insert_of_nodup (f : ν → μ) {l : List (Value × ν)}
    (hnodup : (l.map Prod.fst).Nodup) (m : ValueMap μ) (v : Value) :
    (l.foldl (fun m e => m.insert e.1 (f e.2)) m).lookup v =
      ((l.find? fun e => e.1 = v).map fun e => f e.2).or (m.lookup v) := by
  induction l generalizing m with
  | nil => simp
  | cons e l ih =>
    obtain ⟨hnot, hl⟩ := List.nodup_cons.mp hnodup
    rw [List.foldl_cons]
    by_cases hv : e.1 = v
    · subst hv
      rw [lookup_foldl_insert_of_notMem fun e' he' heq => hnot (List.mem_map.mpr ⟨e', he', heq⟩),
        AList.lookup_insert]
      simp
    · rw [ih hl, List.find?_cons_of_neg (by simpa using hv), AList.lookup_insert_ne (Ne.symm hv)]

/-- Writing the entries of a walk. -/
theorem lookup_foldl_insert (f : ν → μ) (source : ValueMap ν) (m : ValueMap μ) (v : Value) :
    (source.walk.foldl (fun m e => m.insert e.1 (f e.2)) m).lookup v =
      ((source.lookup v).map f).or (m.lookup v) := by
  rw [lookup_foldl_insert_of_nodup f (nodup_walk source), ← find?_walk source v, Option.map_map]
  rfl

/-- Writing the entries of a walk whose keys pass a test. -/
theorem lookup_foldl_insert_if (q : Value → Bool) (source : ValueMap ν) (v : Value) :
    (source.walk.foldl (fun m e => if q e.1 then m.insert e.1 e.2 else m)
      (∅ : ValueMap ν)).lookup v =
      if q v then source.lookup v else none := by
  have hnodup : ((source.walk.filter fun e => q e.1).map Prod.fst).Nodup :=
    (nodup_walk source).sublist (List.filter_sublist.map Prod.fst)
  have hfold := lookup_foldl_insert_of_nodup (id : ν → ν) hnodup ∅ v
  rw [List.foldl_filter] at hfold
  refine hfold.trans ?_
  have htest : (fun e : Value × ν => decide (q e.1 = true ∧ decide (e.1 = v) = true)) =
      fun e => q v && decide (e.1 = v) := by
    funext e
    by_cases hev : e.1 = v
    · simp [hev]
    · simp [hev]
  rw [List.find?_filter, htest, ← find?_walk source v]
  cases q v <;> simp

end ValueMap

/-! ### Extensions -/

namespace RegionAllocation

/-- Every variable of the allocation is marked for saving. -/
def SavesAll (a : RegionAllocation) : Prop :=
  ∀ v va, a.vars.lookup v = some va → va.rawNeedSave = true

/-- The other allocation mentions every variable of this one, with the same placement and flags. -/
def ExtendedBy (a b : RegionAllocation) : Prop :=
  ∀ v va, a.vars.lookup v = some va → b.vars.lookup v = some va

theorem savesAll_empty : SavesAll {} := by
  intro v va h
  simp at h

theorem ExtendedBy.refl (a : RegionAllocation) : ExtendedBy a a := fun _ _ h => h

theorem ExtendedBy.trans {a b c : RegionAllocation} (hab : ExtendedBy a b) (hbc : ExtendedBy b c) :
    ExtendedBy a c := fun v va h => hbc v va (hab v va h)

end RegionAllocation

open RegionAllocation

/-- The variables of an extension. -/
theorem lookup_extendsAllocation (target source : RegionAllocation) (v : Value) :
    (extendsAllocation target source).vars.lookup v =
      (target.vars.lookup v).or (source.vars.lookup v) := by
  have hvars : (extendsAllocation target source).vars = source.vars.walk.foldl
      (fun m e => if e.1 ∈ m then m else m.insert e.1 (id e.2)) target.vars := by
    rw [extendsAllocation]
    refine (List.foldl_hom RegionAllocation.vars fun t e => ?_).symm
    by_cases h : e.1 ∈ t.vars
    · simp [h]
    · simp only [h, ↓reduceIte, id]
      split_ifs
      · cases source.vmOffsets.lookup e.1 <;> rfl
      · rfl
  rw [hvars, ValueMap.lookup_foldl_fill]
  congr 1
  exact ValueMap.find?_walk source.vars v

theorem savesAll_extendsAllocation {target source : RegionAllocation} (ht : target.SavesAll)
    (hs : source.SavesAll) : (extendsAllocation target source).SavesAll := by
  intro v va h
  rw [lookup_extendsAllocation, Option.or_eq_some_iff] at h
  rcases h with h | ⟨-, h⟩
  · exact ht v va h
  · exact hs v va h

/-! ### Merges -/

section Merge

variable {state : SchematicStateAnalysis} {increase : Bool}

/-- **One variable of a merge**: the result keeps what it has and mentions the variable with the
placement it was given. -/
theorem addNewVarAlloc_spec {source : RegionAllocation} {acc acc' : RegionAllocation × List (ℕ × ℕ)}
    {e : Value × VariableAllocation}
    (h : addNewVarAlloc state increase source acc e = some acc') :
    ExtendedBy acc.1 acc'.1 ∧
      (∃ vb, acc'.1.vars.lookup e.1 = some vb ∧ vb.placement = e.2.placement) ∧
      ∀ v va, acc'.1.vars.lookup v = some va →
        acc.1.vars.lookup v = some va ∨ (v, va) = e := by
  obtain ⟨result, occupied⟩ := acc
  obtain ⟨w, wa⟩ := e
  -- an inserted variable is the only news
  have hadd : ∀ {r : RegionAllocation}, r.vars = result.vars.insert w wa →
      result.vars.lookup w = none → ExtendedBy result r ∧
        (∃ vb, r.vars.lookup w = some vb ∧ vb.placement = wa.placement) ∧
        ∀ v va, r.vars.lookup v = some va → result.vars.lookup v = some va ∨ (v, va) = (w, wa) := by
    intro r hr hnone
    refine ⟨fun v va hv => ?_, ⟨wa, by rw [hr, AList.lookup_insert], rfl⟩, fun v va hv => ?_⟩
    · rw [hr, AList.lookup_insert_ne]
      · exact hv
      · rintro rfl
        rw [hnone] at hv
        cases hv
    · rw [hr] at hv
      by_cases hvw : v = w
      · subst hvw
        rw [AList.lookup_insert] at hv
        cases hv
        exact Or.inr rfl
      · rw [AList.lookup_insert_ne hvw] at hv
        exact Or.inl hv
  simp only [addNewVarAlloc] at h
  cases hw : result.vars.lookup w with
  | some existing =>
    rw [hw] at h
    -- the variable is there already: with another placement the merge would have failed
    have hsame : acc' = (result, occupied) ∧ existing.placement = wa.placement := by
      by_cases hp : existing.placement = wa.placement
      · refine ⟨?_, hp⟩
        simp only [hp, ne_eq, not_true_eq_false, ↓reduceIte] at h
        split_ifs at h with hvm
        · split at h
          · split_ifs at h with hoff
            · exact (Option.some.inj h).symm
          · exact (Option.some.inj h).symm
        · exact (Option.some.inj h).symm
      · simp [hp] at h
    obtain ⟨rfl, hp⟩ := hsame
    exact ⟨ExtendedBy.refl _, ⟨existing, hw, hp⟩, fun v va hv => Or.inl hv⟩
  | none =>
    rw [hw] at h
    by_cases hvm : wa.placement = .vm
    · simp only [hvm, ↓reduceIte] at h
      cases hoff : source.vmOffsets.lookup w with
      | some off =>
        rw [hoff] at h
        simp only at h
        split_ifs at h
        cases h
        exact hadd rfl hw
      | none =>
        rw [hoff] at h
        simp only at h
        split_ifs at h
        cases h
        exact hadd rfl hw
    · simp only [hvm, ↓reduceIte] at h
      cases h
      exact hadd rfl hw

/-- **A merge of some variables**: the result keeps what it has, mentions every variable with the
placement it was given, and invents nothing. -/
theorem foldlM_addNewVarAlloc_spec {l : List (RegionAllocation × Value × VariableAllocation)}
    {acc acc' : RegionAllocation × List (ℕ × ℕ)}
    (h : l.foldlM (fun acc p => addNewVarAlloc state increase p.1 acc p.2) acc = some acc') :
    ExtendedBy acc.1 acc'.1 ∧
      (∀ p ∈ l, ∃ vb, acc'.1.vars.lookup p.2.1 = some vb ∧ vb.placement = p.2.2.placement) ∧
      ∀ v va, acc'.1.vars.lookup v = some va →
        acc.1.vars.lookup v = some va ∨ ∃ p ∈ l, (v, va) = p.2 := by
  induction l generalizing acc with
  | nil =>
    cases h
    exact ⟨ExtendedBy.refl _, by simp, fun v va hv => Or.inl hv⟩
  | cons p l ih =>
    rw [List.foldlM_cons] at h
    obtain ⟨mid, hmid, hrest⟩ := Option.bind_eq_some_iff.mp h
    obtain ⟨hext, ⟨vb, hvb, hplace⟩, honly⟩ := addNewVarAlloc_spec hmid
    obtain ⟨hext', hall, honly'⟩ := ih hrest
    refine ⟨hext.trans hext', ?_, fun v va hv => ?_⟩
    · rintro q (_ | ⟨_, hq⟩)
      · exact ⟨vb, hext' _ _ hvb, hplace⟩
      · exact hall q hq
    · rcases honly' v va hv with hv | ⟨q, hq, heq⟩
      · rcases honly v va hv with hv | heq
        · exact Or.inl hv
        · exact Or.inr ⟨p, List.mem_cons_self, heq⟩
      · exact Or.inr ⟨q, List.mem_cons_of_mem _ hq, heq⟩

/-- **What a merge returns**: the first allocation is kept, every variable of the others is
mentioned with its placement, and every variable comes from one of them. -/
theorem mergeAllocations_spec {first : RegionAllocation} {rest : List RegionAllocation}
    {m : RegionAllocation} (h : mergeAllocations (first :: rest) state increase = some m) :
    ExtendedBy first m ∧
      (∀ a ∈ rest, ∀ v va, a.vars.lookup v = some va →
        ∃ vb, m.vars.lookup v = some vb ∧ vb.placement = va.placement) ∧
      ∀ v va, m.vars.lookup v = some va → ∃ a ∈ first :: rest, a.vars.lookup v = some va := by
  obtain ⟨acc, hacc, rfl⟩ := Option.map_eq_some_iff.mp h
  obtain ⟨hext, hall, honly⟩ := foldlM_addNewVarAlloc_spec hacc
  refine ⟨hext, fun a ha v va hv => ?_, fun v va hv => ?_⟩
  · refine hall (a, v, va) (List.mem_flatMap.mpr ⟨a, ha, List.mem_map.mpr ⟨(v, va), ?_, rfl⟩⟩)
    exact ValueMap.mem_walk.mpr hv
  · rcases honly v va hv with hv | ⟨p, hp, heq⟩
    · exact ⟨first, List.mem_cons_self, hv⟩
    · obtain ⟨a, ha, hp⟩ := List.mem_flatMap.mp hp
      obtain ⟨e, he, rfl⟩ := List.mem_map.mp hp
      simp only at heq
      subst heq
      exact ⟨a, List.mem_cons_of_mem _ ha, ValueMap.mem_walk.mp he⟩

theorem savesAll_mergeAllocations {l : List RegionAllocation} {m : RegionAllocation}
    (hl : ∀ a ∈ l, a.SavesAll) (h : mergeAllocations l state increase = some m) : m.SavesAll := by
  cases l with
  | nil =>
    cases h
    exact savesAll_empty
  | cons first rest =>
    intro v va hv
    obtain ⟨a, ha, hva⟩ := (mergeAllocations_spec h).2.2 v va hv
    exact hl a ha v va hva

end Merge

/-! ### Chosen allocations -/

section Choose

variable {state : SchematicStateAnalysis} {params : SchematicParams}
  {accesses : ValueMap VariableAccessEstimate}

/-- The estimates assume that every variable has to be saved. -/
def SavesAccesses (accesses : ValueMap VariableAccessEstimate) : Prop :=
  ∀ v a, accesses.lookup v = some a → a.needSave = true

private theorem lookup_insert_some {ν : Type} {m : ValueMap ν} {v w : Value} {a b : ν}
    (h : (m.insert w a).lookup v = some b) : b = a ∧ v = w ∨ m.lookup v = some b := by
  by_cases hv : v = w
  · subst hv
    rw [AList.lookup_insert] at h
    exact Or.inl ⟨(Option.some.inj h).symm, rfl⟩
  · rw [AList.lookup_insert_ne hv] at h
    exact Or.inr h

/-- Placing a variable that the constraints do not mention keeps them. -/
theorem RegionAllocation.ExtendedBy.insert {c r r' : RegionAllocation} {v : Value}
    {va : VariableAllocation}
    (h : ExtendedBy c r) (hv : c.vars.lookup v = none) (hr : r'.vars = r.vars.insert v va) :
    ExtendedBy c r' := by
  intro w wa hw
  rw [hr, AList.lookup_insert_ne, h w wa hw]
  rintro rfl
  rw [hv] at hw
  cases hw

/-- Placing a variable that is marked for saving. -/
theorem RegionAllocation.SavesAll.insert {r r' : RegionAllocation} {v : Value}
    {va : VariableAllocation}
    (h : r.SavesAll) (hva : va.rawNeedSave = true) (hr : r'.vars = r.vars.insert v va) :
    r'.SavesAll := by
  intro w wa hw
  rw [hr] at hw
  rcases lookup_insert_some hw with ⟨rfl, -⟩ | hw
  · exact hva
  · exact h w wa hw

/-- What the evaluation of the candidates keeps: the constraints, and that the candidates that
compete are not among them. -/
structure Evaluated (c : RegionAllocation) (acc : RegionAllocation × List CandidateEntry) :
    Prop where
  ext : ExtendedBy c acc.1
  free : ∀ k ∈ acc.2, c.vars.lookup k.v = none
  saves : acc.1.SavesAll
  needSave : ∀ k ∈ acc.2, k.needSave = true

theorem Evaluated.step {c : RegionAllocation} {acc : RegionAllocation × List CandidateEntry}
    (haccess : SavesAccesses accesses) (h : Evaluated c acc) (hasStart hasEnd : Bool) (v : Value) :
    Evaluated c (evaluateCandidate accesses state params hasStart hasEnd acc v) := by
  obtain ⟨result, candidates⟩ := acc
  simp only [evaluateCandidate]
  by_cases hv : v ∈ result.vars
  · rw [if_pos hv]
    exact h
  · have hnone : c.vars.lookup v = none := by
      cases hc : c.vars.lookup v with
      | none => rfl
      | some va =>
        have hmem := h.ext v va hc
        rw [AList.lookup_eq_none.mpr hv] at hmem
        cases hmem
    rw [if_neg hv]
    cases ha : accesses.lookup v with
    | none => exact h
    | some access =>
      have hsave := haccess v access ha
      simp only
      split_ifs
      · exact h
      · exact ⟨h.ext.insert hnone rfl, h.free, h.saves.insert hsave rfl, h.needSave⟩
      · refine ⟨h.ext, fun k hk => ?_, h.saves, fun k hk => ?_⟩
        · rcases List.mem_append.mp hk with hk | hk
          · exact h.free k hk
          · rw [List.mem_singleton.mp hk]
            exact hnone
        · rcases List.mem_append.mp hk with hk | hk
          · exact h.needSave k hk
          · rw [List.mem_singleton.mp hk]
            exact hsave

theorem Evaluated.foldl {c : RegionAllocation} (haccess : SavesAccesses accesses)
    {hasStart hasEnd : Bool} {l : List Value} {acc : RegionAllocation × List CandidateEntry}
    (h : Evaluated c acc) :
    Evaluated c (l.foldl (evaluateCandidate accesses state params hasStart hasEnd) acc) := by
  induction l generalizing acc with
  | nil => exact h
  | cons v l ih => exact ih (h.step haccess hasStart hasEnd v)

/-- Packing a candidate writes its variable and nothing else. -/
theorem Packing.pack_vars (params : SchematicParams) (p : Packing) (k : CandidateEntry) :
    ∃ placement, (p.pack params k).result.vars =
      p.result.vars.insert k.v ⟨placement, k.needRestore, k.needSave⟩ := by
  by_cases hgain : 0 < k.gain
  · rw [Packing.pack, if_pos hgain]
    cases p.tracker.getExistingAddress k.v with
    | some existing => exact ⟨.vm, rfl⟩
    | none =>
      by_cases hfit : (p.currAddress + k.size) % 2 ^ 32 ≤ params.vmCapacityBytes
      · exact ⟨.vm, by simp only [if_pos hfit]⟩
      · exact ⟨.nvm, by simp only [if_neg hfit]⟩
  · exact ⟨.nvm, by rw [Packing.pack, if_neg hgain]⟩

theorem Packing.foldl_pack {c : RegionAllocation} {l : List CandidateEntry} {p : Packing}
    (hfree : ∀ k ∈ l, c.vars.lookup k.v = none) (hsave : ∀ k ∈ l, k.needSave = true)
    (hext : ExtendedBy c p.result) (hp : p.result.SavesAll) :
    ExtendedBy c (l.foldl (Packing.pack params) p).result ∧
      (l.foldl (Packing.pack params) p).result.SavesAll := by
  induction l generalizing p with
  | nil => exact ⟨hext, hp⟩
  | cons k l ih =>
    obtain ⟨placement, hvars⟩ := p.pack_vars params k
    exact ih (fun k' hk' => hfree k' (List.mem_cons_of_mem _ hk'))
      (fun k' hk' => hsave k' (List.mem_cons_of_mem _ hk'))
      (hext.insert (hfree k List.mem_cons_self) hvars)
      (hp.insert (hsave k List.mem_cons_self) hvars)

/-- **What `chooseMemoryAllocation` returns**: it keeps the constrained allocation, and marks every
variable for saving if its inputs do. -/
theorem chooseMemoryAllocationOf_spec {startAlloc endAlloc : Option RegionAllocation}
    {allocations : List RegionAllocation} {tracker : VMAddressTracker} {c : RegionAllocation}
    (haccess : SavesAccesses accesses) (hc : c.SavesAll)
    (h : constrainedAllocation state startAlloc endAlloc allocations = some c) :
    ExtendedBy c (chooseMemoryAllocationOf accesses state params startAlloc endAlloc allocations
        tracker).1.1 ∧
      (chooseMemoryAllocationOf accesses state params startAlloc endAlloc allocations
        tracker).1.1.SavesAll := by
  have heval : Evaluated c (state.candidates.foldl
      (evaluateCandidate accesses state params startAlloc.isSome endAlloc.isSome) (c, [])) :=
    Evaluated.foldl haccess ⟨ExtendedBy.refl c, by simp, hc, by simp⟩
  have hsort {k : CandidateEntry} (l : List CandidateEntry) :
      k ∈ params.gainSort.sort l → k ∈ l := (params.gainSort.perm l).mem_iff.mp
  rw [chooseMemoryAllocationOf, h]
  exact Packing.foldl_pack (fun k hk => heval.free k (hsort _ hk))
    (fun k hk => heval.needSave k (hsort _ hk)) heval.ext heval.saves

/-- The constrained allocation marks every variable for saving if its parts do. -/
theorem savesAll_constrainedAllocation {startAlloc endAlloc : Option RegionAllocation}
    {allocations : List RegionAllocation} {c : RegionAllocation}
    (hs : ∀ a ∈ startAlloc, a.SavesAll) (he : ∀ a ∈ endAlloc, a.SavesAll)
    (hl : ∀ a ∈ allocations, a.SavesAll)
    (h : constrainedAllocation state startAlloc endAlloc allocations = some c) : c.SavesAll := by
  have hboundary : ∀ {boundary : Option RegionAllocation} {b m : RegionAllocation},
      (∀ a ∈ boundary, a.SavesAll) → b.SavesAll → mergeBoundary state boundary b = some m →
        m.SavesAll := by
    intro boundary b m ha hb hm
    cases boundary with
    | none => exact Option.some.inj hm ▸ hb
    | some a =>
      rw [mergeBoundary] at hm
      refine savesAll_mergeAllocations (fun x hx => ?_) hm
      rcases List.mem_pair.mp hx with rfl | rfl
      · exact ha x rfl
      · exact hb
  obtain ⟨m₁, hm₁, h⟩ := Option.bind_eq_some_iff.mp h
  obtain ⟨m₂, hm₂, h⟩ := Option.bind_eq_some_iff.mp h
  exact hboundary he (hboundary hs (savesAll_mergeAllocations hl hm₁) hm₂) h

/-- **Every allocation the allocator returns** marks its variables for saving, if its inputs do. -/
theorem savesAll_chooseMemoryAllocationOf {startAlloc endAlloc : Option RegionAllocation}
    {allocations : List RegionAllocation} {tracker : VMAddressTracker}
    (haccess : SavesAccesses accesses) (hs : ∀ a ∈ startAlloc, a.SavesAll)
    (he : ∀ a ∈ endAlloc, a.SavesAll) (hl : ∀ a ∈ allocations, a.SavesAll) :
    (chooseMemoryAllocationOf accesses state params startAlloc endAlloc allocations
      tracker).1.1.SavesAll := by
  cases hc : constrainedAllocation state startAlloc endAlloc allocations with
  | none =>
    rw [chooseMemoryAllocationOf, hc]
    exact savesAll_empty
  | some c =>
    exact (chooseMemoryAllocationOf_spec haccess (savesAll_constrainedAllocation hs he hl hc) hc).2

/-- The estimates of an interval assume saves. -/
theorem savesAccesses_variableAccesses (intervalBlocks : List BasicBlock) :
    SavesAccesses (variableAccesses intervalBlocks state) := by
  rw [variableAccesses]
  refine List.foldlRecOn (motive := SavesAccesses) state.candidates _ ?_ ?_
  · intro v a h
    simp at h
  · intro m hm v _ w a h
    simp only at h
    split_ifs at h
    · exact hm w a h
    · rcases lookup_insert_some h with ⟨rfl, -⟩ | h
      · rfl
      · exact hm w a h

/-- The estimates of a loop assume saves. -/
theorem savesAccesses_estimateLoopVariableAccess (trace : LoadedLoopTrace) (numIterations : ℕ) :
    SavesAccesses (estimateLoopVariableAccess trace state numIterations) := by
  rw [estimateLoopVariableAccess]
  refine List.foldlRecOn (motive := SavesAccesses) state.candidates _ ?_ ?_
  · intro v a h
    simp at h
  · intro m hm v _ w a h
    simp only at h
    split_ifs at h
    all_goals first
      | exact hm w a h
      | rcases lookup_insert_some h with ⟨rfl, -⟩ | h
        · rfl
        · exact hm w a h

end Choose

/-- The variables of a boundary allocation: the given placements, to be saved and restored. -/
theorem lookup_buildBoundaryAllocation (placement : ValueMap Placement)
    (state : SchematicStateAnalysis) (v : Value) :
    (buildBoundaryAllocation placement state).vars.lookup v =
      (placement.lookup v).map fun p => { placement := p } := by
  have hvars : (buildBoundaryAllocation placement state).vars = placement.walk.foldl
      (fun m e => m.insert e.1 ({ placement := e.2 } : VariableAllocation)) ∅ := by
    rw [buildBoundaryAllocation]
    refine (List.foldl_hom RegionAllocation.vars fun t e => ?_).symm
    simp only
    split_ifs <;> rfl
  rw [hvars, ValueMap.lookup_foldl_insert fun p : Placement =>
    ({ placement := p } : VariableAllocation)]
  simp

end Bao.Schematic
