import Bao.Milp.Exactness
import Bao.Milp.GlobalMachine

/-!
# Crash consistency of the eligible globals

The instrumented run of a feasible placement observes the loads of the uninstrumented run,
whatever boundaries lose power. The two runs are related after every node by
`Consistent`: for a global that may still be read, the copy the node's placement selects is
current, and unless the node leaves it dirty its NVM copy is current as well.

A node is handled in two halves. `boundary_current` re-establishes, at the top of the node,
that the selected copy is current and that the NVM copy is current unless a predecessor left
the global dirty in the same region; it is here that the save condition C9, the merge
equality C15 and the restores of C4 are used. `foldl_access_consistent` then runs the
accesses of the node.
-/

namespace Bao.Milp.GlobalProgram

open CheckpointOptimizer

variable {P : CheckpointOptimizer} {x : MilpVar → ℚ} {σ Val : Type*}
  {Q : GlobalProgram P σ Val}

/-! ### Liveness inside a node -/

/-- A global may be read after a node. -/
def MayLiveOut (Q : GlobalProgram P σ Val) (b : NodeId) (g : GlobalVariable) : Prop :=
  ∃ c, P.Edge b c ∧ MayLive P.cfg.edges Q.accesses g c

/-- A global may be read by the accesses `l` that remain in a node, or after the node. -/
def LiveBefore (Q : GlobalProgram P σ Val) (b : NodeId) (l : List (GlobalAccess σ Val))
    (g : GlobalVariable) : Prop :=
  GlobalAccess.exposed g l = true ∨ GlobalAccess.kills g l = false ∧ Q.MayLiveOut b g

theorem mayLive_of_liveBefore {b : NodeId} {g : GlobalVariable}
    (h : Q.LiveBefore b (Q.accesses b) g) : MayLive P.cfg.edges Q.accesses g b := by
  rcases h with h | ⟨hkill, c, hedge, hlive⟩
  · exact .here h
  · exact .there hkill hedge hlive

/-- Before an access that is not a full store of the global, the global is live if it is live
after the access. -/
theorem liveBefore_cons {b : NodeId} {g : GlobalVariable} {a : GlobalAccess σ Val}
    {l : List (GlobalAccess σ Val)} (h : Q.LiveBefore b l g)
    (ha : ∀ f, a ≠ .fullStore g f) : Q.LiveBefore b (a :: l) g := by
  cases a with
  | load g' k =>
    rcases h with h | h
    · exact .inl (by simp [GlobalAccess.exposed, h])
    · exact .inr h
  | partialStore g' f => exact h
  | fullStore g' f =>
    have hne : g' ≠ g := fun heq => ha f (by rw [heq])
    rcases h with h | ⟨hkill, hout⟩
    · exact .inl (by simp [GlobalAccess.exposed, h, hne])
    · exact .inr ⟨by simp [GlobalAccess.kills, hkill, hne], hout⟩

/-! ### The accesses of a node -/

/-- The two runs agree inside a node with placement `inVM` before the accesses `l`. -/
structure AgreeBefore (Q : GlobalProgram P σ Val) (b : NodeId) (inVM : GlobalVariable → Bool)
    (l : List (GlobalAccess σ Val)) (u : GlobalState σ Val) (i : ShadowState σ Val) : Prop where
  state : i.state = u.state
  trace : i.trace = u.trace
  current : ∀ g ∈ P.state.vmObjs, Q.LiveBefore b l g → i.copyOf inVM g = u.mem g

@[simp] theorem copyOf_writeCopy_self (i : ShadowState σ Val) (inVM : GlobalVariable → Bool)
    (g : GlobalVariable) (a : Val) : (i.writeCopy inVM g a).copyOf inVM g = a := by
  by_cases h : inVM g = true <;> simp [ShadowState.writeCopy, ShadowState.copyOf, h]

theorem copyOf_writeCopy_of_ne (i : ShadowState σ Val) (inVM : GlobalVariable → Bool)
    {g g' : GlobalVariable} (hne : g ≠ g') (a : Val) :
    (i.writeCopy inVM g' a).copyOf inVM g = i.copyOf inVM g := by
  by_cases h : inVM g' = true <;>
    simp [ShadowState.writeCopy, ShadowState.copyOf, h, Function.update_of_ne hne]

@[simp] theorem writeCopy_state (i : ShadowState σ Val) (inVM : GlobalVariable → Bool)
    (g : GlobalVariable) (a : Val) : (i.writeCopy inVM g a).state = i.state := by
  by_cases h : inVM g = true <;> simp [ShadowState.writeCopy, h]

@[simp] theorem writeCopy_trace (i : ShadowState σ Val) (inVM : GlobalVariable → Bool)
    (g : GlobalVariable) (a : Val) : (i.writeCopy inVM g a).trace = i.trace := by
  by_cases h : inVM g = true <;> simp [ShadowState.writeCopy, h]

theorem writeCopy_nvm_of_ne (i : ShadowState σ Val) (inVM : GlobalVariable → Bool)
    {g g' : GlobalVariable} (hne : g ≠ g') (a : Val) :
    (i.writeCopy inVM g' a).nvm g = i.nvm g := by
  by_cases h : inVM g' = true <;> simp [ShadowState.writeCopy, h, Function.update_of_ne hne]

/-- A write keeps the agreement when the written values agree wherever they are live. -/
private theorem AgreeBefore.write {b : NodeId} {inVM : GlobalVariable → Bool}
    {a : GlobalAccess σ Val} {l : List (GlobalAccess σ Val)} {u : GlobalState σ Val}
    {i : ShadowState σ Val} {g : GlobalVariable} {new new' : Val}
    (h : Q.AgreeBefore b inVM (a :: l) u i) (hg : Q.LiveBefore b l g → new' = new)
    (hother : ∀ g' ≠ g, Q.LiveBefore b l g' → Q.LiveBefore b (a :: l) g') :
    Q.AgreeBefore b inVM l { u with mem := Function.update u.mem g new }
      (i.writeCopy inVM g new') := by
  refine ⟨by simpa using h.state, by simpa using h.trace, fun g' hg' hlive => ?_⟩
  by_cases hne : g' = g
  · subst hne
    simpa using hg hlive
  · rw [copyOf_writeCopy_of_ne i inVM hne]
    simpa [Function.update_of_ne hne] using h.current g' hg' (hother g' hne hlive)

/-- **One access** keeps the runs in agreement. -/
theorem AgreeBefore.access {b : NodeId} {inVM : GlobalVariable → Bool} {a : GlobalAccess σ Val}
    {l : List (GlobalAccess σ Val)} {u : GlobalState σ Val} {i : ShadowState σ Val}
    (h : Q.AgreeBefore b inVM (a :: l) u i) (ha : a.target ∈ P.state.vmObjs) :
    Q.AgreeBefore b inVM l (u.access a) (i.access inVM a) := by
  cases a with
  | load g k =>
    have hval : i.copyOf inVM g = u.mem g :=
      h.current g ha (.inl (by simp [GlobalAccess.exposed]))
    refine ⟨?_, ?_, fun g' hg' hlive => ?_⟩
    · simp only [ShadowState.access, GlobalState.access, hval, h.state]
    · simp only [ShadowState.access, GlobalState.access, hval, h.trace]
    · exact h.current g' hg' (liveBefore_cons hlive (by simp))
  | fullStore g f =>
    refine h.write (fun _ => by rw [h.state]) fun g' hne hlive => ?_
    exact liveBefore_cons hlive fun f' heq => by
      simp only [GlobalAccess.fullStore.injEq] at heq
      exact hne heq.1.symm
  | partialStore g f =>
    refine h.write (fun hlive => ?_) fun g' _ hlive => liveBefore_cons hlive (by simp)
    -- what is kept of the old content is current, since the global is still live
    rw [h.state, h.current g ha (liveBefore_cons hlive (by simp))]

/-- Running the remaining accesses of a node keeps the runs in agreement. -/
theorem AgreeBefore.foldl {b : NodeId} {inVM : GlobalVariable → Bool}
    (l : List (GlobalAccess σ Val)) {u : GlobalState σ Val} {i : ShadowState σ Val}
    (h : Q.AgreeBefore b inVM l u i) (hl : ∀ a ∈ l, a.target ∈ P.state.vmObjs) :
    Q.AgreeBefore b inVM [] (l.foldl GlobalState.access u)
      (l.foldl (ShadowState.access inVM) i) := by
  induction l generalizing u i with
  | nil => exact h
  | cons a l ih =>
    rw [List.foldl_cons, List.foldl_cons]
    exact ih (h.access (hl a List.mem_cons_self)) fun a' ha' => hl a' (List.mem_cons_of_mem a ha')

/-- Accesses that do not store a global leave all its copies alone. -/
theorem foldl_access_frame (inVM : GlobalVariable → Bool) {g : GlobalVariable}
    (l : List (GlobalAccess σ Val)) (hl : ∀ a ∈ l, a.storesTo g = false)
    (u : GlobalState σ Val) (i : ShadowState σ Val) :
    (l.foldl GlobalState.access u).mem g = u.mem g ∧
      (l.foldl (ShadowState.access inVM) i).nvm g = i.nvm g := by
  induction l generalizing u i with
  | nil => exact ⟨rfl, rfl⟩
  | cons a l ih =>
    rw [List.foldl_cons, List.foldl_cons]
    obtain ⟨hmem, hnvm⟩ := ih (fun a' ha' => hl a' (List.mem_cons_of_mem a ha')) (u.access a)
      (i.access inVM a)
    rw [hmem, hnvm]
    have hne : ∀ g', (g' == g) = false → g ≠ g' := fun g' h heq => by simp [heq] at h
    have ha := hl a List.mem_cons_self
    cases a with
    | load g' k => exact ⟨rfl, rfl⟩
    | fullStore g' f =>
      exact ⟨Function.update_of_ne (hne g' ha) _ _, writeCopy_nvm_of_ne i inVM (hne g' ha) _⟩
    | partialStore g' f =>
      exact ⟨Function.update_of_ne (hne g' ha) _ _, writeCopy_nvm_of_ne i inVM (hne g' ha) _⟩

/-- An unstored global is not killed. -/
theorem kills_eq_false_of_not_stored {g : GlobalVariable} (l : List (GlobalAccess σ Val))
    (hl : ∀ a ∈ l, a.storesTo g = false) : GlobalAccess.kills g l = false := by
  induction l with
  | nil => rfl
  | cons a l ih =>
    have hrest := ih fun a' ha' => hl a' (List.mem_cons_of_mem a ha')
    have ha := hl a List.mem_cons_self
    cases a with
    | load _ _ => exact hrest
    | partialStore _ _ => exact hrest
    | fullStore g' f =>
      simp only [GlobalAccess.storesTo] at ha
      simp [GlobalAccess.kills, ha, hrest]

/-! ### The extracted solution at a node -/

theorem extract_r {b : NodeId} (h : P.Satisfies x) (hb : b ∈ P.cfg.blocks) :
    (P.extractSolution x).r b = true ↔ x (.r b) = 1 := by
  simp only [extractSolution, hb, decide_true, Bool.true_and, decide_eq_true_eq]
  rcases h.r_binary b hb with hp | hp <;> norm_num [hp]

/-- A live-in global is restored at a region start exactly when it is placed in VM there. -/
theorem extract_rHat {b : NodeId} {g : GlobalVariable} (h : P.Satisfies x)
    (hb : b ∈ P.cfg.blocks) (hg : g ∈ P.state.eligLiveIn b) (hr : x (.r b) = 1) :
    (P.extractSolution x).rHat b (.global g) = true ↔ P.place x b (.global g) = 1 := by
  have hk : (b, .global g) ∈ P.rHatKeys := mem_rHatKeys.mpr ⟨hb, g, hg, rfl⟩
  obtain ⟨hone, hzero⟩ := h.rHat_eq hk
  simp only [extractSolution, if_pos hk, decide_eq_true_eq]
  by_cases hp : P.place x b (.global g) = 1
  · simp only [hone ⟨hr, hp⟩, hp, iff_true]
    norm_num
  · simp only [hzero fun hn => hp hn.2, hp, iff_false]
    norm_num

/-- A save is only ordered when every predecessor places the global in VM (C9', C15). -/
theorem place_of_extract_s {p b : NodeId} {g : GlobalVariable} (h : P.Satisfies x)
    (hedge : P.Edge p b) (hs : (P.extractSolution x).s b (.global g) = true) :
    P.place x p (.global g) = 1 := by
  simp only [extractSolution, Bool.and_eq_true, decide_eq_true_eq] at hs
  obtain ⟨hk, hpos⟩ := hs
  by_contra hne
  have hle := h.s_le_zero_of_not_placed hk hedge hne
  linarith

/-- A dirty, VM-placed global that is live into a region start is saved there (C9). -/
theorem extract_s_of_dirty {p b : NodeId} {g : GlobalVariable} (h : P.Satisfies x)
    (hentry : b ≠ P.cfg.entryBlock) (hedge : P.Edge p b) (hlive : g ∈ P.state.eligLiveIn b)
    (hr : x (.r b) = 1) (hd : 1 ≤ P.dirty x p (.global g))
    (hplace : P.place x p (.global g) = 1) : (P.extractSolution x).s b (.global g) = true := by
  have hpk : (p, .global g) ∈ P.dKeys := by
    by_contra hno
    rw [dirty_of_not_mem hno] at hd
    norm_num at hd
  have hk : (b, .global g) ∈ P.sKeys := mem_sKeys.mpr ⟨⟨hedge.dst_mem, hentry⟩,
    List.mem_append_left _ (List.mem_map_of_mem hlive), p, hedge, hpk⟩
  have hge := h.le_s p b _ hedge hk hpk
  rw [dirty_of_mem hpk] at hd
  simp only [extractSolution, hk, decide_true, Bool.true_and, decide_eq_true_eq]
  linarith

/-! ### Across a node -/

/-- **The invariant after a node**: the runs agree on state and trace, and for every global
that may still be read the selected copy is current, and so is the NVM copy of a clean one. -/
structure Consistent (Q : GlobalProgram P σ Val) (x : MilpVar → ℚ) (b : NodeId)
    (u : GlobalState σ Val) (i : ShadowState σ Val) : Prop where
  state : i.state = u.state
  trace : i.trace = u.trace
  current : ∀ g ∈ P.state.vmObjs, Q.MayLiveOut b g →
    i.copyOf (fun g => (P.extractSolution x).m b (.global g)) g = u.mem g
  clean : ∀ g ∈ P.state.vmObjs, Q.MayLiveOut b g → P.dirty x b (.global g) < 1 →
    i.nvm g = u.mem g

/-- What the top of a node establishes: the copies selected by the node's own placement are
current, and a global that is not dirty on entry, `dirtyIn g < 1`, is current in NVM. -/
structure Entered (Q : GlobalProgram P σ Val) (x : MilpVar → ℚ) (b : NodeId)
    (dirtyIn : GlobalVariable → ℚ) (u : GlobalState σ Val) (i : ShadowState σ Val) : Prop where
  state : i.state = u.state
  trace : i.trace = u.trace
  current : ∀ g ∈ P.state.vmObjs, MayLive P.cfg.edges Q.accesses g b →
    i.copyOf (fun g => (P.extractSolution x).m b (.global g)) g = u.mem g
  clean : ∀ g ∈ P.state.vmObjs, MayLive P.cfg.edges Q.accesses g b → dirtyIn g < 1 →
    i.nvm g = u.mem g

/-- **The accesses of a node** lead from its top to the invariant after it. -/
theorem Entered.consistent {b : NodeId} {dirtyIn : GlobalVariable → ℚ} {u : GlobalState σ Val}
    {i : ShadowState σ Val} (h : P.Satisfies x) (hb : b ∈ P.cfg.blocks)
    (he : Q.Entered x b dirtyIn u i)
    (hdirty : ∀ g ∈ P.state.vmObjs, P.state.isDef b (.global g) = false →
      P.dirty x b (.global g) < 1 → dirtyIn g < 1) :
    Q.Consistent x b (Q.execNode u b)
      ((Q.accesses b).foldl
        (ShadowState.access fun g => (P.extractSolution x).m b (.global g)) i) := by
  have hagree : Q.AgreeBefore b (fun g => (P.extractSolution x).m b (.global g))
      (Q.accesses b) u i :=
    ⟨he.state, he.trace, fun g hg hlive => he.current g hg (mayLive_of_liveBefore hlive)⟩
  obtain ⟨hstate, htrace, hcurrent⟩ := hagree.foldl _ (Q.target_mem b)
  refine ⟨hstate, htrace, fun g hg hout => hcurrent g hg (.inr ⟨rfl, hout⟩), ?_⟩
  intro g hg hout hlt
  -- a clean global is not stored by the node, so its NVM copy is the one of the top
  have hdef : P.state.isDef b (.global g) = false := by
    by_contra hdef
    have hdef' : P.state.isDef b (.global g) = true := by simpa using hdef
    have hk := mem_dKeys_of_isDef hb (global_mem_tracked hg) hdef'
    have hge := h.def_le_d b _ hk
    rw [defCoeff, if_pos hdef', ← dirty_of_mem (x := x) hk] at hge
    linarith
  have hstores : ∀ a ∈ Q.accesses b, a.storesTo g = false := by
    intro a ha
    by_contra hst
    have hdef' := (Q.isDef_iff b hb g hg).mpr ⟨a, ha, by simpa using hst⟩
    rw [hdef] at hdef'
    exact absurd hdef' (by simp)
  obtain ⟨hmem, hnvm⟩ := foldl_access_frame (fun g => (P.extractSolution x).m b (.global g))
    _ hstores u i
  obtain ⟨c, hedge, hlive⟩ := hout
  have hlive' : MayLive P.cfg.edges Q.accesses g b :=
    .there (kills_eq_false_of_not_stored _ hstores) hedge hlive
  rw [hnvm]
  exact (he.clean g hg hlive' (hdirty g hg hdef hlt)).trans hmem.symm

/-- **A boundary** brings every live global back: after the commits the NVM copies are
current, and the restores fill the shadows the node reads. -/
theorem boundary_current {p b : NodeId} {u : GlobalState σ Val} {i : ShadowState σ Val}
    {loss : Option (GlobalVariable → Val)} (h : P.Satisfies x)
    (hentry : b ≠ P.cfg.entryBlock) (hedge : P.Edge p b) (hr : x (.r b) = 1)
    (hc : Q.Consistent x p u i) :
    Q.Entered x b (fun _ => 0) u (boundary P (P.extractSolution x) b loss i) := by
  have hb := hedge.dst_mem
  have hnvm : ∀ g ∈ P.state.vmObjs, MayLive P.cfg.edges Q.accesses g b →
      (i.commit fun g => (P.extractSolution x).s b (.global g)).nvm g = u.mem g := by
    intro g hg hlive
    have hout : Q.MayLiveOut p g := ⟨b, hedge, hlive⟩
    have hcur := hc.current g hg hout
    by_cases hs : (P.extractSolution x).s b (.global g) = true
    · -- a commit publishes a current shadow: the merge equality rules out a stale one
      have hm := (h.extract_m hedge.src_mem hg).mpr (place_of_extract_s h hedge hs)
      simpa [ShadowState.commit, hs, ShadowState.copyOf, hm] using hcur
    · simp only [ShadowState.commit, hs, Bool.false_eq_true, if_false]
      by_cases hm : (P.extractSolution x).m p (.global g) = true
      · refine hc.clean g hg hout (not_le.mp fun hd => hs ?_)
        exact extract_s_of_dirty h hentry hedge (Q.mayLive_subset b hb g hg hlive) hr hd
          ((h.extract_m hedge.src_mem hg).mp hm)
      · simpa [ShadowState.copyOf, hm] using hcur
  have hlose : ∀ j : ShadowState σ Val, (j.lose loss).nvm = j.nvm ∧
      (j.lose loss).state = j.state ∧ (j.lose loss).trace = j.trace := by
    intro j
    cases loss <;> exact ⟨rfl, rfl, rfl⟩
  rw [boundary, if_pos ((extract_r h hb).mpr hr), if_neg hentry]
  obtain ⟨hl1, hl2, hl3⟩ := hlose (i.commit fun g => (P.extractSolution x).s b (.global g))
  refine ⟨hl2.trans hc.state, hl3.trans hc.trace, fun g hg hlive => ?_, fun g hg hlive _ => ?_⟩
  · have hrestore := extract_rHat h hb (Q.mayLive_subset b hb g hg hlive) hr
    by_cases hm : (P.extractSolution x).m b (.global g) = true
    · have hrh := hrestore.mpr ((h.extract_m hb hg).mp hm)
      simpa [ShadowState.restore, ShadowState.copyOf, hm, hrh, hl1] using hnvm g hg hlive
    · simpa [ShadowState.restore, ShadowState.copyOf, hm, hl1] using hnvm g hg hlive
  · simpa [ShadowState.restore, hl1] using hnvm g hg hlive

/-- Where no region starts, the placement is that of the predecessor (C14) and nothing is
moved. -/
theorem enter_same_region {p b : NodeId} {u : GlobalState σ Val} {i : ShadowState σ Val}
    {loss : Option (GlobalVariable → Val)} (h : P.Satisfies x) (hedge : P.Edge p b)
    (hr : x (.r b) = 0) (hc : Q.Consistent x p u i) :
    Q.Entered x b (fun g => P.dirty x p (.global g)) u
      (boundary P (P.extractSolution x) b loss i) := by
  have hnot : ¬(P.extractSolution x).r b = true := by
    rw [extract_r h hedge.dst_mem, hr]
    norm_num
  rw [boundary, if_neg hnot]
  refine ⟨hc.state, hc.trace, fun g hg hlive => ?_,
    fun g hg hlive hd => hc.clean g hg ⟨b, hedge, hlive⟩ hd⟩
  have hplace : P.place x b (.global g) = P.place x p (.global g) := by
    obtain ⟨h1, h2⟩ := h.place_edge p b hedge g hg
    rw [hr] at h1 h2
    linarith
  have hm : (P.extractSolution x).m b (.global g) = (P.extractSolution x).m p (.global g) := by
    rw [Bool.eq_iff_iff, h.extract_m hedge.dst_mem hg, h.extract_m hedge.src_mem hg, hplace]
  have hcur := hc.current g hg ⟨b, hedge, hlive⟩
  simpa only [ShadowState.copyOf, hm] using hcur

/-- The dirty bit of a node that does not store a global is at least that of a predecessor in
the same region (C6). -/
theorem dirty_mono {p b : NodeId} {v : Value} (h : P.Satisfies x) (hedge : P.Edge p b)
    (hr : x (.r b) = 0) : P.dirty x p v ≤ P.dirty x b v := by
  by_cases hk : (p, v) ∈ P.dKeys
  · have hle := h.d_edge p b v hedge hk
    rw [hr, sub_zero] at hle
    rwa [dirty_of_mem hk, dirty_of_mem (dKeys_step hk hedge)]
  · rw [dirty_of_not_mem hk]
    by_cases hk' : (b, v) ∈ P.dKeys
    · rw [dirty_of_mem hk']
      exact (h.d_bounds b v hk').1
    · rw [dirty_of_not_mem hk']

/-- **One node** keeps the invariant. -/
theorem Consistent.step {p b : NodeId} {u : GlobalState σ Val} {i : ShadowState σ Val}
    {loss : Option (GlobalVariable → Val)} (h : P.Satisfies x)
    (hentry : b ≠ P.cfg.entryBlock) (hedge : P.Edge p b) (hc : Q.Consistent x p u i) :
    Q.Consistent x b (Q.execNode u b) (Q.execNodeInstr (P.extractSolution x) i (b, loss)) := by
  rcases h.r_binary b hedge.dst_mem with hr | hr
  · refine (enter_same_region h hedge hr hc).consistent h hedge.dst_mem fun g _ _ hlt => ?_
    exact (dirty_mono h hedge hr).trans_lt hlt
  · refine (boundary_current h hentry hedge hr hc).consistent h hedge.dst_mem ?_
    exact fun _ _ _ _ => zero_lt_one

/-- The entry starts from the initial NVM image. -/
theorem entry_consistent {s : σ} {mem shadow : GlobalVariable → Val}
    {loss : Option (GlobalVariable → Val)} (h : P.Satisfies x) :
    Q.Consistent x P.cfg.entryBlock (Q.execNode ⟨s, mem, []⟩ P.cfg.entryBlock)
      (Q.execNodeInstr (P.extractSolution x) ⟨s, mem, shadow, []⟩ (P.cfg.entryBlock, loss)) := by
  have hb := P.cfg.entry_mem
  refine Entered.consistent h hb (?_ : Q.Entered x _ (fun _ => 0) _ _) fun _ _ _ _ =>
    zero_lt_one
  rw [boundary, if_pos ((extract_r h hb).mpr h.entry), if_pos rfl]
  refine ⟨rfl, rfl, fun g hg hlive => ?_, fun g hg hlive _ => rfl⟩
  have hrestore := extract_rHat h hb (Q.mayLive_subset _ hb g hg hlive) h.entry
  by_cases hm : (P.extractSolution x).m P.cfg.entryBlock (.global g) = true
  · have hrh := hrestore.mpr ((h.extract_m hb hg).mp hm)
    simp [ShadowState.restore, ShadowState.copyOf, hm, hrh]
  · simp [ShadowState.restore, ShadowState.copyOf, hm]

/-- A run keeps the invariant, from any node on. -/
theorem Consistent.run (h : P.Satisfies x) (hno : ∀ b, ¬P.Edge b P.cfg.entryBlock)
    (path : List (NodeId × Option (GlobalVariable → Val))) {p : NodeId} {u : GlobalState σ Val}
    {i : ShadowState σ Val} (hpath : List.IsChain P.Edge (p :: path.map Prod.fst))
    (hc : Q.Consistent x p u i) :
    (Q.execInstr (P.extractSolution x) i path).trace = (Q.exec u (path.map Prod.fst)).trace := by
  induction path generalizing p u i with
  | nil => exact hc.trace
  | cons step path ih =>
    obtain ⟨hedge, hrest⟩ := List.isChain_cons_cons.mp hpath
    have hentry : step.1 ≠ P.cfg.entryBlock := fun heq => hno p (heq ▸ hedge)
    exact ih hrest (hc.step h hentry hedge)

/-- **Crash consistency of the eligible globals.** Let the entry have no predecessors. For
every feasible assignment, every path from the entry and every choice of boundaries at which
power is lost, the instrumented run observes the loads of the uninstrumented run. -/
theorem global_crash_consistency (h : P.buildModel.Feasible x)
    (hno : ∀ b, ¬P.Edge b P.cfg.entryBlock) (Q : GlobalProgram P σ Val) (s : σ)
    (mem shadow : GlobalVariable → Val)
    (path : List (NodeId × Option (GlobalVariable → Val)))
    (hpath : List.IsChain P.Edge (P.cfg.entryBlock :: path.map Prod.fst)) :
    (Q.execInstr (P.extractSolution x) ⟨s, mem, shadow, []⟩
        ((P.cfg.entryBlock, none) :: path)).trace =
      (Q.exec ⟨s, mem, []⟩ (P.cfg.entryBlock :: path.map Prod.fst)).trace :=
  (entry_consistent (feasible_iff.mp h)).run (feasible_iff.mp h) hno path hpath

/-- A program on the graph of `loopOptimizer`: node `0` initializes the global, node `1`
reads it and updates a part of it, node `2` reads it. -/
def loopProgram : GlobalProgram loopOptimizer ℕ ℕ where
  accesses
    | 0 => [.fullStore 0 fun s => s + 7]
    | 1 => [.load 0 fun s a => s + a, .partialStore 0 fun s a => s + 2 * a]
    | _ => [.load 0 fun _ a => a]
  target_mem := by
    intro b a ha
    match b with
    | 0 => simp_all [GlobalAccess.target, loopOptimizer]
    | 1 => rcases List.mem_pair.mp ha with rfl | rfl <;> decide
    | _ + 2 => simp_all [GlobalAccess.target, loopOptimizer]
  mayLive_subset := by
    intro b hb g hg hlive
    have hg0 : g = 0 := by simpa [loopOptimizer] using hg
    subst hg0
    by_cases hb0 : b = 0
    · subst hb0
      -- the initial store kills the global at the entry
      cases hlive with
      | here h => simp [GlobalAccess.exposed] at h
      | there h => simp [GlobalAccess.kills] at h
    · have : b = 1 ∨ b = 2 := by simpa [loopOptimizer, hb0] using hb
      simp [loopOptimizer, this]
  isDef_iff := by
    intro b hb g hg
    have hg0 : g = 0 := by simpa [loopOptimizer] using hg
    have hb' : b = 0 ∨ b = 1 ∨ b = 2 := by simpa [loopOptimizer] using hb
    rcases hb' with rfl | rfl | rfl <;>
      simp [hg0, IStateView.isDef, loopOptimizer, GlobalAccess.storesTo]

/-- Two rounds of the loop, with a power loss before the first. -/
theorem global_crash_consistency_loop :
    (∀ b, ¬loopOptimizer.Edge b loopOptimizer.cfg.entryBlock) ∧
    (loopProgram.execInstr (loopOptimizer.extractSolution loopAssignment)
        ⟨0, fun _ => 0, fun _ => 5, []⟩
        [(0, none), (1, some fun _ => 99), (1, none), (2, none)]).trace =
      (loopProgram.exec ⟨0, fun _ => 0, []⟩ [0, 1, 1, 2]).trace := by
  have hno : ∀ b, ¬loopOptimizer.Edge b loopOptimizer.cfg.entryBlock := by
    simp [Edge, loopOptimizer]
  exact ⟨hno, global_crash_consistency loopAssignment_feasible hno loopProgram 0 (fun _ => 0)
    (fun _ => 5) [(1, some fun _ => 99), (1, none), (2, none)] (by simp [Edge, loopOptimizer])⟩

end Bao.Milp.GlobalProgram
