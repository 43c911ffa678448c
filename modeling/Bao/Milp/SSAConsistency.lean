import Bao.Milp.SSAMachine

/-!
# Crash consistency of SSA values and allocas

On every path and for every choice of region starts and power losses, the instrumented
function observes what the uninstrumented one observes (`ssa_crash_consistency`).

The invariant in the middle of a block (`Mid`) says which copies are current: the reaching
definition of every value live into the block, the original and the reaching definition of the
values the block has defined so far, the originals of its PHIs unless the block is split, and
the data of every alloca that is live. A boundary re-establishes it, because it saves and
reloads just these live values (`Top.boundary`); an instruction keeps it, because its operands
and the allocas it reads are current (`Mid.step`).
-/

namespace Bao.Milp

namespace SSACode

variable {σ Val : Type*} {F : SSACode σ Val}

/-! ### Effects of instructions -/

/-- Two stacks hold the same data in an alloca. -/
def AgreeOn (F : SSACode σ Val) (s t : AllocaId → Contents) (a : AllocaId) : Prop :=
  ∀ k < F.data a, s a k = t a k

theorem readBytes_congr {s t : AllocaId → Contents} {ptr : AllocaId × ℕ}
    (h : F.AgreeOn s t ptr.1) (n : ℕ) : F.readBytes s ptr n = F.readBytes t ptr n := by
  refine List.map_congr_left fun k _ => ?_
  split_ifs with hk
  · exact h _ hk
  · rfl

theorem writeBytes_agree {s t : AllocaId → Contents} {a : AllocaId} (h : F.AgreeOn s t a)
    (ptr : AllocaId × ℕ) (n : ℕ) (bytes : Contents) :
    F.AgreeOn (writeBytes s ptr n bytes) (writeBytes t ptr n bytes) a := by
  intro k hk
  by_cases ha : a = ptr.1
  · subst ha
    simp only [writeBytes, Function.update_self]
    split_ifs
    · rfl
    · exact h k hk
  · rw [writeBytes, writeBytes, Function.update_of_ne ha, Function.update_of_ne ha]
    exact h k hk

/-- A write that covers the data makes the stacks agree. -/
theorem writeBytes_covers {a : AllocaId} {n : ℕ} (hn : F.data a ≤ n)
    (s t : AllocaId → Contents) (bytes : Contents) :
    F.AgreeOn (writeBytes s (a, 0) n bytes) (writeBytes t (a, 0) n bytes) a := by
  intro k hk
  have hin : 0 ≤ k ∧ k < 0 + n := by omega
  simp only [writeBytes, Function.update_self, if_pos hin]

/-- A must-store of a memory intrinsic or a store writes all data of its alloca. -/
private theorem mustStore_agree {i : Instr σ Val} {a : AllocaId} (w : σ) (vals : List Val)
    {s t : AllocaId → Contents} (hread : ∀ a, i.MayRead a → F.AgreeOn s t a)
    (hmust : F.isMustStore a i = true) :
    F.AgreeOn (F.exec w vals s i).stack (F.exec w vals t i).stack a := by
  match i with
  | .store _ (.direct d) size bytes =>
    simp only [isMustStore, Bool.and_eq_true, decide_eq_true_eq] at hmust
    obtain ⟨rfl, hle⟩ := hmust
    exact writeBytes_covers hle s t _
  | .memset _ (.direct d) (.const n) bytes =>
    simp only [isMustStore, Bool.and_eq_true, decide_eq_true_eq] at hmust
    obtain ⟨rfl, hle⟩ := hmust
    exact writeBytes_covers hle s t _
  | .memcpy _ (.direct d) src (.const n) =>
    simp only [isMustStore, Bool.and_eq_true, decide_eq_true_eq] at hmust
    obtain ⟨rfl, hle⟩ := hmust
    have hsrc := readBytes_congr (hread _ ⟨vals, rfl⟩) n
    simp only [exec, Length.eval, hsrc]
    exact writeBytes_covers hle s t _

/-- **Effects agree.** On stacks that agree on what an instruction reads, it does the same to
the world, gives the same result, and leaves every alloca in agreement that was so before or
that it overwrites. -/
theorem exec_agree {i : Instr σ Val} (w : σ) (vals : List Val) {s t : AllocaId → Contents}
    (hread : ∀ a, i.MayRead a → F.AgreeOn s t a) :
    (F.exec w vals s i).world = (F.exec w vals t i).world ∧
      (F.exec w vals s i).result = (F.exec w vals t i).result ∧
      ∀ a, F.AgreeOn s t a ∨ F.isMustStore a i = true →
        F.AgreeOn (F.exec w vals s i).stack (F.exec w vals t i).stack a := by
  have hmust := fun a (h : F.isMustStore a i = true) =>
    mustStore_agree w vals hread h
  cases i with
  | call dst args frame run =>
    have hframe : F.frameOf s frame = F.frameOf t frame := by
      funext a k
      rw [frameOf, frameOf]
      split_ifs with h
      · exact hread a h.1 k h.2
      · rfl
    refine ⟨by simp only [exec, hframe], by simp only [exec, hframe], fun a ha k hk => ?_⟩
    simp only [exec, hframe]
    split_ifs with hmem
    · rfl
    · exact ha.resolve_right (by simp [isMustStore]) k hk
  | load dst args ptr size decode =>
    have hbytes := readBytes_congr (hread _ ⟨vals, rfl⟩) size
    exact ⟨rfl, by simp only [exec, hbytes], fun a ha => ha.resolve_right (by simp [isMustStore])⟩
  | store args ptr size bytes =>
    exact ⟨rfl, rfl, fun a ha => ha.elim (fun h => writeBytes_agree h _ _ _) (hmust a)⟩
  | memset args ptr len bytes =>
    exact ⟨rfl, rfl, fun a ha => ha.elim (fun h => writeBytes_agree h _ _ _) (hmust a)⟩
  | memcpy args dst src len =>
    refine ⟨rfl, rfl, fun a ha => ha.elim (fun h => ?_) (hmust a)⟩
    have hsrc := readBytes_congr (hread _ ⟨vals, rfl⟩) (len.eval vals)
    simp only [exec, hsrc]
    exact writeBytes_agree h _ _ _

/-! ### Registers -/

@[simp] theorem getReg_getReg (r : InstId → Val) (v : InstId) :
    F.getReg (F.getReg r) v = F.getReg r v := by
  rw [getReg, getReg]
  split_ifs <;> rfl

theorem getReg_assign {r r' : InstId → Val} {dst : Option InstId} {v : InstId}
    (h : v ∈ dst ∨ F.getReg r v = F.getReg r' v) (x : Val) :
    F.getReg (assign r dst x) v = F.getReg (assign r' dst x) v := by
  cases dst with
  | none => exact h.resolve_left (by simp)
  | some d =>
    rw [assign, assign]
    by_cases hv : v = d
    · simp [getReg, hv]
    · have heq := h.resolve_left (by simpa using Ne.symm hv)
      simpa [getReg, Function.update_of_ne hv] using heq

theorem getReg_assignAll {r r' : InstId → Val} {v : InstId} (as : List (InstId × Val))
    (h : v ∈ as.map Prod.fst ∨ F.getReg r v = F.getReg r' v) :
    F.getReg (assignAll r as) v = F.getReg (assignAll r' as) v := by
  induction as generalizing r r' with
  | nil => exact h.resolve_left (by simp)
  | cons e as ih =>
    refine ih ?_
    by_cases hv : v = e.1
    · exact .inr (by simp [getReg, hv])
    · rw [List.map_cons, List.mem_cons, or_iff_right hv] at h
      exact h.imp id fun heq => by simpa [getReg, Function.update_of_ne hv] using heq

/-- The reaching definition after a write to both copies. -/
theorem reaching_assign {regionStart : BlockId → Bool} {m m' : Machine σ Val}
    {r : InstId → Val} {dst : Option InstId} {v : InstId} {x : Val}
    (horig : m'.orig = assign m.orig dst x) (hcur : m'.cur = assign m.cur dst x)
    (h : v ∈ dst ∨ F.reaching regionStart m v = F.getReg r v) :
    F.reaching regionStart m' v = F.getReg (assign r dst x) v := by
  rw [reaching] at h ⊢
  split_ifs at h ⊢
  · rw [hcur]
    exact getReg_assign h x
  · rw [horig]
    exact getReg_assign h x

theorem reaching_assignAll {regionStart : BlockId → Bool} {m m' : Machine σ Val}
    {r : InstId → Val} {as : List (InstId × Val)} {v : InstId}
    (horig : m'.orig = assignAll m.orig as) (hcur : m'.cur = assignAll m.cur as)
    (h : v ∈ as.map Prod.fst ∨ F.reaching regionStart m v = F.getReg r v) :
    F.reaching regionStart m' v = F.getReg (assignAll r as) v := by
  rw [reaching] at h ⊢
  split_ifs at h ⊢
  · rw [hcur]
    exact getReg_assignAll as h
  · rw [horig]
    exact getReg_assignAll as h

end SSACode

namespace SSAFunction

variable {σ Val : Type*} {F : SSAFunction σ Val} {regionStart : BlockId → Bool}

/-! ### Live values -/

/-- A value of the block that is live into it is a PHI. -/
theorem isPhi_of_live {v : InstId} {b : BlockId} (h : .inst v ∈ F.ineligLiveIn b)
    (hb : F.defBlock v = b) : F.isPhi v = true ∧ v ∈ F.phiDefs b := by
  obtain ⟨-, ⟨hval, -⟩, hlive⟩ := F.mem_ineligLiveIn_inst.mp h
  rw [SSACode.ssaLiveIn] at hlive
  split_ifs at hlive with hskip hdef
  · refine ⟨hlive, ?_⟩
    have := (F.mem_values.mp hval).2
    rwa [if_pos hlive, hb] at this
  · exact absurd hb.symm hdef

/-- A value of another block that is live into this one is live in the sense of the dataflow
problem. -/
theorem ssaLive_of_live {v : InstId} {b : BlockId} (h : .inst v ∈ F.ineligLiveIn b)
    (hb : F.defBlock v ≠ b) : F.ssaLive v b = true := by
  obtain ⟨-, -, hlive⟩ := F.mem_ineligLiveIn_inst.mp h
  rw [SSACode.ssaLiveIn] at hlive
  split_ifs at hlive with hskip hdef
  · exact absurd hdef.symm hb
  · exact hlive

/-- A tracked value that is live in the sense of the dataflow problem is live into the
block. -/
theorem live_of_ssaLive {v : InstId} {b : BlockId} (hval : v ∈ F.values)
    (htrack : F.needsTracking v = true) (hlive : F.ssaLive v b = true) :
    .inst v ∈ F.ineligLiveIn b := by
  obtain ⟨hb, hne, u, hu, -⟩ := SSACode.exists_use_of_ssaLive hlive
  refine F.mem_ineligLiveIn_inst.mpr ⟨hb, ⟨hval, htrack⟩, ?_⟩
  rw [SSACode.ssaLiveIn, if_neg (by simp [List.ne_nil_of_mem hu]), if_neg hne]
  exact hlive

/-- A tracked PHI is live into its own block. -/
theorem live_of_phi {v : InstId} {b : BlockId} (hb : b ∈ F.cfg.blocks) (hv : v ∈ F.phiDefs b)
    (htrack : F.needsTracking v = true) : .inst v ∈ F.ineligLiveIn b := by
  obtain ⟨φ, hφ, rfl⟩ := List.mem_map.mp hv
  obtain ⟨hdef, hphi⟩ := F.phi_def b hb φ hφ
  have hval : φ.dst ∈ F.values :=
    F.mem_values.mpr ⟨hdef ▸ hb, by rw [if_pos hphi, hdef]; exact hv⟩
  refine F.mem_ineligLiveIn_inst.mpr ⟨hb, ⟨hval, htrack⟩, ?_⟩
  rw [SSACode.ssaLiveIn, if_neg (by simp [hphi]), if_pos hdef.symm]
  exact hphi

/-- A value with a use in a block: by an instruction there, or by a PHI with that incoming
block. -/
def UseAt (F : SSAFunction σ Val) (v : InstId) (b : BlockId) : Prop :=
  F.usedIn v b = true ∨ b ∈ F.phiUseBlocks v

/-- **Uses are tracked.** A value used in a block it is not defined in, or a PHI, is live into
the block. -/
theorem live_of_use {v : InstId} {b : BlockId} (hb : b ∈ F.cfg.blocks) (huse : F.UseAt v b)
    {done : List InstId} (havail : F.AvailableAt b done v)
    (hcross : F.defBlock v ≠ b ∨ F.isPhi v = true) : .inst v ∈ F.ineligLiveIn b := by
  have htrack : F.needsTracking v = true := by
    rw [SSACode.needsTracking, Bool.or_eq_true, List.any_eq_true]
    rcases huse with huse | huse
    · refine .inr ⟨b, hb, ?_⟩
      rcases hcross with hne | hphi
      · simp [huse, Ne.symm hne]
      · simp [huse, hphi]
    · exact .inl (by simpa using List.ne_nil_of_mem huse)
  rw [SSACode.AvailableAt] at havail
  by_cases hdef : F.defBlock v = b
  · have hphi := hcross.resolve_left (not_not.mpr hdef)
    rw [if_pos hdef, if_pos hphi] at havail
    exact live_of_phi hb havail htrack
  · rw [if_neg hdef] at havail
    refine live_of_ssaLive havail.1 htrack (SSACode.ssaLive_of_use hb (Ne.symm hdef) ?_)
    rcases huse with huse | huse
    · exact List.mem_append_right _ (List.mem_filter.mpr ⟨hb, by simp [huse, Ne.symm hdef]⟩)
    · exact List.mem_append_left _ huse

/-! ### The invariant -/

/-- **The middle of a block.** `done` are the results of the body so far, `rest` the
instructions to come. -/
structure Mid (F : SSAFunction σ Val) (regionStart : BlockId → Bool) (b : BlockId)
    (done : List InstId) (rest : List (Instr σ Val)) (s : SSACode.RegState σ Val)
    (m : SSACode.Machine σ Val) : Prop where
  world : m.world = s.world
  trace : m.trace = s.trace
  live : ∀ v, .inst v ∈ F.ineligLiveIn b → F.reaching regionStart m v = F.getReg s.regs v
  phi : F.isSplit regionStart b = false → ∀ v ∈ F.phiDefs b,
    F.getReg m.orig v = F.getReg s.regs v
  own : ∀ v ∈ done, F.getReg m.orig v = F.getReg s.regs v ∧
    F.reaching regionStart m v = F.getReg s.regs v
  stack : ∀ a ∈ F.allocas, F.AllocaLive a b rest → F.AgreeOn m.stack s.stack a

/-- **The top of a block**, after its PHIs and before a boundary. -/
structure Top (F : SSAFunction σ Val) (regionStart : BlockId → Bool) (b : BlockId)
    (s : SSACode.RegState σ Val) (m : SSACode.Machine σ Val) : Prop where
  world : m.world = s.world
  trace : m.trace = s.trace
  live : ∀ v, .inst v ∈ F.ineligLiveIn b → F.reaching regionStart m v = F.getReg s.regs v
  phi : ∀ v ∈ F.phiDefs b, F.getReg m.orig v = F.getReg s.regs v
  stack : ∀ a ∈ F.allocas, F.allocaLiveIn a b = true → F.AgreeOn m.stack s.stack a

variable {s : SSACode.RegState σ Val} {m : SSACode.Machine σ Val} {b : BlockId}

/-- Every use in the block reads the current value. -/
theorem Mid.read {done : List InstId} {rest : List (Instr σ Val)}
    (h : Mid F regionStart b done rest s m) (hb : b ∈ F.cfg.blocks) {v : InstId}
    (huse : F.UseAt v b) (havail : F.AvailableAt b done v) :
    F.readAt regionStart .bottom b m v = F.getReg s.regs v := by
  rw [SSACode.readAt, SSACode.inDefHalf]
  by_cases hdef : F.defBlock v = b
  · cases hphi : F.isPhi v with
    | true =>
      have hmem : v ∈ F.phiDefs b := by
        rwa [SSACode.AvailableAt, if_pos hdef, if_pos hphi] at havail
      have hlive := h.live v (live_of_use hb huse havail (.inr hphi))
      cases hsplit : F.isSplit regionStart b with
      | true => simpa [hdef] using hlive
      | false => simpa [hdef] using h.phi hsplit v hmem
    | false =>
      have hmem : v ∈ done := by
        rwa [SSACode.AvailableAt, if_pos hdef, if_neg (by simp [hphi])] at havail
      simpa [hdef] using (h.own v hmem).1
  · simpa [hdef] using h.live v (live_of_use hb huse havail (.inl hdef))

/-- The operands of the instructions of the block have their current values. -/
theorem Mid.evalArgs {done : List InstId} {rest : List (Instr σ Val)}
    (h : Mid F regionStart b done rest s m) (hb : b ∈ F.cfg.blocks)
    {args : List (Operand Val)}
    (hargs : ∀ v ∈ args.flatMap Operand.uses, F.UseAt v b ∧ F.AvailableAt b done v) :
    args.map (SSACode.evalOperand (F.readAt regionStart .bottom b m)) =
      args.map (SSACode.evalOperand (F.getReg s.regs)) := by
  refine List.map_congr_left fun x hx => ?_
  cases x with
  | const c => rfl
  | inst v =>
    obtain ⟨huse, havail⟩ := hargs v (List.mem_flatMap.mpr ⟨_, hx, by simp [Operand.uses]⟩)
    exact h.read hb huse havail

/-- **One instruction** keeps the invariant. -/
theorem Mid.step {done : List InstId} {i : Instr σ Val} {rest : List (Instr σ Val)}
    (h : Mid F regionStart b done (i :: rest) s m) (hb : b ∈ F.cfg.blocks) (hi : i ∈ F.body b)
    (havail : ∀ v ∈ i.uses, F.AvailableAt b done v) :
    Mid F regionStart b (done ++ i.dst.toList) rest (F.step s i)
      (F.stepInstr regionStart b m i) := by
  have hargs : i.args.map (SSACode.evalOperand (F.readAt regionStart .bottom b m)) =
      i.args.map (SSACode.evalOperand (F.getReg s.regs)) := h.evalArgs hb fun v hv => by
    refine ⟨.inl ?_, havail v hv⟩
    rw [SSACode.usedIn, Bool.or_eq_true, List.any_eq_true]
    exact .inl ⟨i, hi, decide_eq_true hv⟩
  have hread : ∀ a, i.MayRead a → F.AgreeOn m.stack s.stack a := by
    intro a ha
    refine h.stack a (F.read_mem b hb i hi a ha) (.inl ?_)
    simp [SSACode.loadsFirst, F.ref_sound i a ha]
  obtain ⟨hworld, hresult, hstack⟩ := SSACode.exec_agree s.world
    (i.args.map (SSACode.evalOperand (F.getReg s.regs))) hread
  constructor
  · simp only [SSACode.stepInstr, SSACode.step, hargs, h.world, hworld]
  · simp only [SSACode.stepInstr, SSACode.step, hargs, h.world, h.trace, hresult]
  · intro v hv
    simp only [SSACode.step, ← hresult]
    refine SSACode.reaching_assign ?_ ?_ (.inr (h.live v hv))
    · simp only [SSACode.stepInstr, hargs, h.world]
    · simp only [SSACode.stepInstr, hargs, h.world]
  · intro hsplit v hv
    simp only [SSACode.stepInstr, SSACode.step, hargs, h.world, hresult]
    exact SSACode.getReg_assign (.inr (h.phi hsplit v hv)) _
  · intro v hv
    have hcase : v ∈ i.dst ∨ v ∈ done := by
      rcases List.mem_append.mp hv with hv | hv
      · exact .inr hv
      · exact .inl (by simpa using hv)
    constructor
    · simp only [SSACode.stepInstr, SSACode.step, hargs, h.world, hresult]
      exact SSACode.getReg_assign (hcase.imp id fun hv => (h.own v hv).1) _
    · simp only [SSACode.step, ← hresult]
      refine SSACode.reaching_assign ?_ ?_ (hcase.imp id fun hv => (h.own v hv).2)
      · simp only [SSACode.stepInstr, hargs, h.world]
      · simp only [SSACode.stepInstr, hargs, h.world]
  · intro a ha hlive
    simp only [SSACode.stepInstr, SSACode.step, hargs, h.world]
    refine hstack a ?_
    cases hmust : F.isMustStore a i with
    | true => exact .inr rfl
    | false =>
      refine .inl (h.stack a ha ?_)
      rw [SSACode.AllocaLive] at hlive ⊢
      rw [SSACode.loadsFirst, List.any_cons, hmust]
      simpa using hlive.imp (fun hl => .inr hl) id

/-- **The body** of a block. -/
theorem Mid.foldl (l : List (Instr σ Val)) {done : List InstId}
    (h : Mid F regionStart b done l s m) (hb : b ∈ F.cfg.blocks) (hl : ∀ i ∈ l, i ∈ F.body b)
    (havail : F.BodyAvail b done l) :
    Mid F regionStart b (done ++ l.filterMap Instr.dst) [] (l.foldl F.step s)
        (l.foldl (F.stepInstr regionStart b) m) ∧
      F.BodyAvail b (done ++ l.filterMap Instr.dst) [] := by
  induction l generalizing done s m with
  | nil => simpa using ⟨h, havail⟩
  | cons i l ih =>
    obtain ⟨hi, hrest⟩ := havail
    have hstep := h.step hb (hl i List.mem_cons_self) hi
    have := ih hstep (fun j hj => hl j (List.mem_cons_of_mem i hj)) hrest
    have hdefs : done ++ i.dst.toList ++ l.filterMap Instr.dst =
        done ++ (i :: l).filterMap Instr.dst := by
      cases hd : i.dst <;> simp [hd]
    rwa [hdefs] at this

/-- **Entering a block** from a predecessor: the PHIs take their current values, and what is
live into the block is current. -/
theorem Mid.enter {p : BlockId} (h : Mid F regionStart p (F.instrDefs p) [] s m)
    (hsucc : F.cfg.Succ p b) :
    Top F regionStart b (F.enter (some p) b s) (F.enterInstr regionStart (some p) b m) := by
  have hp := hsucc.src_mem
  have hphis : F.phiValues (F.readAt regionStart .bottom p m) p b =
      F.phiValues (F.getReg s.regs) p b := by
    refine List.map_congr_left fun φ hφ => ?_
    cases hx : φ.incoming.lookup p with
    | none => rfl
    | some x =>
      have hmem : (p, x) ∈ φ.incoming := by
        obtain ⟨l₁, l₂, heq, -⟩ := List.lookup_eq_some_iff.mp hx
        simp [heq]
      cases x with
      | const c => rfl
      | inst v =>
        have huse : p ∈ F.phiUseBlocks v := by
          refine List.mem_flatMap.mpr ⟨b, hsucc.dst_mem, List.mem_flatMap.mpr ⟨φ, hφ, ?_⟩⟩
          exact List.mem_map.mpr ⟨_, List.mem_filter.mpr ⟨hmem, by simp [Operand.uses]⟩, rfl⟩
        have havail := F.phi_avail b hsucc.dst_mem φ hφ _ hmem v (by simp [Operand.uses])
        simp only [Option.elim, SSACode.evalOperand, h.read hp (.inr huse) havail]
  have hdsts : (F.phiValues (F.getReg s.regs) p b).map Prod.fst = F.phiDefs b := by
    simp [SSACode.phiValues, SSACode.phiDefs]
  constructor
  · exact h.world
  · simp only [SSACode.enterInstr, SSACode.enter, hphis, h.trace]
  · intro v hv
    simp only [SSACode.enter]
    refine SSACode.reaching_assignAll (m := m) (by simp only [SSACode.enterInstr, hphis])
      (by simp only [SSACode.enterInstr, hphis]) ?_
    rw [hdsts]
    by_cases hdef : F.defBlock v = b
    · exact .inl (isPhi_of_live hv hdef).2
    · -- live into the block, so current at the end of the predecessor
      have hlive := ssaLive_of_live hv hdef
      obtain ⟨-, ⟨hval, htrack⟩, -⟩ := F.mem_ineligLiveIn_inst.mp hv
      by_cases hdefp : F.defBlock v = p
      · have hkind := (F.mem_values.mp hval).2
        split_ifs at hkind with hphi
        · exact .inr (h.live v (live_of_phi hp (hdefp ▸ hkind) htrack))
        · exact .inr (h.own v (hdefp ▸ hkind)).2
      · exact .inr (h.live v (live_of_ssaLive hval htrack
          (SSACode.ssaLive_of_succ hsucc (Ne.symm hdefp) hlive)))
  · intro v hv
    simp only [SSACode.enterInstr, SSACode.enter, hphis]
    exact SSACode.getReg_assignAll _ (.inl (hdsts ▸ hv))
  · intro a ha hlive
    exact h.stack a ha (.inr ⟨rfl, b, hsucc, hlive⟩)

/-- The commit stores read the current values. -/
private theorem Top.readAt_top (h : Top F regionStart b s m) {v : InstId}
    (hv : .inst v ∈ F.ineligLiveIn b) :
    F.readAt regionStart .top b m v = F.getReg s.regs v := by
  rw [SSACode.readAt, SSACode.inDefHalf]
  by_cases hdef : F.defBlock v = b
  · obtain ⟨hphi, hmem⟩ := isPhi_of_live hv hdef
    simpa [hdef, hphi] using h.phi v hmem
  · simpa [hdef] using h.live v hv

/-- **A boundary** keeps what is live current, whatever is lost. -/
theorem Top.boundary (h : Top F regionStart b s m) (hb : b ∈ F.cfg.blocks)
    (hentry : b ≠ F.cfg.entryBlock) (loss : Option (SSACode.Lost Val)) :
    Mid F regionStart b [] (F.body b) s (F.boundary regionStart b loss m) := by
  have hstack : ∀ a ∈ F.allocas, F.AllocaLive a b (F.body b) →
      F.allocaLiveIn a b = true ∧ F.AgreeOn m.stack s.stack a := by
    intro a ha hlive
    have hin := SSACode.allocaLiveIn_of_live hb hlive
    exact ⟨hin, h.stack a ha hin⟩
  rw [SSACode.boundary]
  cases hstart : regionStart b with
  | false =>
    exact ⟨h.world, h.trace, h.live, fun _ => h.phi, by simp, fun a ha hl => (hstack a ha hl).2⟩
  | true =>
    rw [if_pos rfl, if_neg hentry]
    refine ⟨?_, ?_, fun v hv => ?_, fun hsplit => ?_, by simp, fun a ha hl k hk => ?_⟩
    · cases loss <;> exact h.world
    · cases loss <;> exact h.trace
    · have hrestore : F.hasRestore regionStart v = true := by
        rw [SSACode.hasRestore, List.any_eq_true]
        exact ⟨b, hb, by simp [hstart, hv]⟩
      have hback : ∀ l : Option (SSACode.Lost Val),
          (SSACode.lose l (F.commit regionStart b m)).valBackup v =
            if F.sizeBytes v ≠ 0 then F.getReg s.regs v else m.valBackup v := by
        intro l
        cases l <;> simp [SSACode.lose, SSACode.commit, hv, h.readAt_top hv]
      rw [SSACode.reaching, if_pos hrestore, SSACode.restore]
      simp only [SSACode.getReg, if_pos hv, hback]
      split_ifs <;> simp_all [SSACode.getReg]
    · simp [SSACode.isSplit, hstart, hentry] at hsplit
    · obtain ⟨hin, hagree⟩ := hstack a ha hl
      have hmem : .alloca a ∈ F.ineligLiveIn b :=
        F.mem_ineligLiveIn_alloca.mpr ⟨hb, ha, hin⟩
      have hk' : k < (F.allocaType a).totalBytes :=
        hk.trans_le (F.allocaType a).kill_le_total
      have hback : ∀ l : Option (SSACode.Lost Val),
          (SSACode.lose l (F.commit regionStart b m)).memBackup a k = m.stack a k := by
        intro l
        cases l <;> simp [SSACode.lose, SSACode.commit, hmem, hk']
      simp only [SSACode.restore, hmem, hk', and_self, if_true, hback]
      exact hagree k hk

/-! ### Runs -/

/-- The uses of a block are available somewhere in it. -/
private theorem exists_available {b : BlockId} {v : InstId} (l : List (Instr σ Val))
    {done : List InstId} (h : F.BodyAvail b done l)
    (hv : (∃ i ∈ l, v ∈ i.uses) ∨ v ∈ (F.termArgs b).flatMap Operand.uses) :
    ∃ done', F.AvailableAt b done' v := by
  induction l generalizing done with
  | nil =>
    rcases hv with ⟨i, hi, -⟩ | hv
    · exact absurd hi List.not_mem_nil
    · exact ⟨done, h v hv⟩
  | cons i l ih =>
    rcases hv with ⟨j, hj, hv⟩ | hv
    · rcases List.mem_cons.mp hj with rfl | hj
      · exact ⟨done, h.1 v hv⟩
      · exact ih h.2 (.inl ⟨j, hj, hv⟩)
    · exact ih h.2 (.inr hv)

/-- Every use is available where it stands. -/
theorem exists_available_of_use {v : InstId} {u : BlockId} (hreach : F.cfg.Reachable u)
    (huse : F.UseAt v u) : ∃ done, F.AvailableAt u done v := by
  rcases huse with hused | hphi
  · rw [SSACode.usedIn, Bool.or_eq_true, List.any_eq_true] at hused
    refine exists_available (F.body u) (F.body_avail u hreach.mem hreach) (hused.imp ?_ ?_)
    · exact fun ⟨i, hi, hv⟩ => ⟨i, hi, by simpa using hv⟩
    · exact fun hv => by simpa using hv
  · obtain ⟨b, hb, hmem⟩ := List.mem_flatMap.mp hphi
    obtain ⟨φ, hφ, hmem⟩ := List.mem_flatMap.mp hmem
    obtain ⟨e, he, rfl⟩ := List.mem_map.mp hmem
    obtain ⟨hin, hv⟩ := List.mem_filter.mp he
    exact ⟨_, F.phi_avail b hb φ hφ e hin v (by simpa using hv)⟩

/-- The uses of a value outside its block are dominated by it. -/
theorem dominates_of_use {v : InstId} {u : BlockId} (hu : u ∈ F.useBlocks v)
    (hne : u ≠ F.defBlock v) (hreach : F.cfg.Reachable u) : F.Dominates (F.defBlock v) u := by
  have huse : F.UseAt v u := by
    rcases List.mem_append.mp hu with hphi | hused
    · exact .inr hphi
    · have hcond := (List.mem_filter.mp hused).2
      rw [Bool.and_eq_true] at hcond
      exact .inl hcond.2
  obtain ⟨done, havail⟩ := exists_available_of_use hreach huse
  rw [SSACode.AvailableAt, if_neg (Ne.symm hne)] at havail
  exact havail.2

/-- No SSA value is live into the entry block. -/
theorem not_live_entry (v : InstId) : .inst v ∉ F.ineligLiveIn F.cfg.entryBlock := by
  intro h
  by_cases hdef : F.defBlock v = F.cfg.entryBlock
  · have hmem := (isPhi_of_live h hdef).2
    rw [SSACode.phiDefs, F.entry_phis] at hmem
    exact absurd hmem List.not_mem_nil
  · obtain ⟨-, -, u, hu, hune, hpath⟩ := SSACode.exists_use_of_ssaLive (ssaLive_of_live h hdef)
    have hreach : F.cfg.Reachable u :=
      Relation.ReflTransGen.mono (fun _ _ hstep => hstep.1) _ _ hpath
    exact dominates_of_use hu hune hreach hdef hpath

/-- Static allocas start undefined. The entry block, if it is a region start, overwrites those
live into it with their backups, and both runs begin with the result. -/
def entryStack (F : SSAFunction σ Val) (regionStart : BlockId → Bool)
    (m : SSACode.Machine σ Val) : AllocaId → Contents :=
  (F.boundary regionStart F.cfg.entryBlock none m).stack

/-- The invariant at the start of the body of the entry block. -/
theorem entry_mid (hworld : m.world = s.world) (htrace : m.trace = s.trace)
    (hstack : s.stack = F.entryStack regionStart m) (loss : Option (SSACode.Lost Val)) :
    Mid F regionStart F.cfg.entryBlock [] (F.body F.cfg.entryBlock) s
      (F.boundary regionStart F.cfg.entryBlock loss m) := by
  have hloss : F.boundary regionStart F.cfg.entryBlock loss m =
      F.boundary regionStart F.cfg.entryBlock none m := by
    simp [SSACode.boundary]
  rw [hloss]
  refine ⟨?_, ?_, fun v hv => absurd hv (not_live_entry v), fun _ v hv => ?_, by simp,
    fun a _ _ k _ => by rw [hstack, entryStack]⟩
  · rw [← hworld, SSACode.boundary]
    split_ifs <;> rfl
  · rw [← htrace, SSACode.boundary]
    split_ifs <;> rfl
  · rw [SSACode.phiDefs, F.entry_phis] at hv
    exact absurd hv List.not_mem_nil

/-- From the start of the body to the end of the block. -/
theorem Mid.finish (h : Mid F regionStart b [] (F.body b) s m) (hreach : F.cfg.Reachable b) :
    let s' := (F.body b).foldl F.step s
    let m' := (F.body b).foldl (F.stepInstr regionStart b) m
    Mid F regionStart b (F.instrDefs b) []
      { s' with
        trace := s'.trace ++ [(F.termArgs b).map (SSACode.evalOperand (F.getReg s'.regs))] }
      { m' with
        trace := m'.trace ++
          [(F.termArgs b).map
            (SSACode.evalOperand (F.readAt regionStart .bottom b m'))] } := by
  intro s' m'
  obtain ⟨hend, havail⟩ := h.foldl (F.body b) hreach.mem (fun i hi => hi)
    (F.body_avail b hreach.mem hreach)
  rw [List.nil_append] at hend havail
  have hargs : (F.termArgs b).map
      (SSACode.evalOperand (F.readAt regionStart .bottom b m')) =
        (F.termArgs b).map (SSACode.evalOperand (F.getReg s'.regs)) := by
    refine hend.evalArgs hreach.mem fun v hv => ⟨.inl ?_, havail v hv⟩
    rw [SSACode.usedIn, Bool.or_eq_true]
    exact .inr (by simpa using hv)
  refine ⟨hend.world, ?_, hend.live, hend.phi, hend.own, hend.stack⟩
  simp only [hargs]
  rw [hend.trace]

/-- **Runs.** From the end of a block on, both runs observe the same. -/
theorem Mid.run {p : BlockId} (h : Mid F regionStart p (F.instrDefs p) [] s m)
    (hreach : F.cfg.Reachable p) {w : List (BlockId × Option (SSACode.Lost Val))}
    (hchain : List.IsChain F.cfg.Succ (p :: w.map Prod.fst)) :
    (F.runInstr regionStart (some p) m w).trace = (F.run (some p) s (w.map Prod.fst)).trace := by
  induction w generalizing p s m with
  | nil => exact h.trace
  | cons e w ih =>
    obtain ⟨b, loss⟩ := e
    obtain ⟨hsucc, hrest⟩ := List.isChain_cons_cons.mp hchain
    have hreach' : F.cfg.Reachable b := hreach.tail hsucc
    have hmid := (h.enter hsucc).boundary hsucc.dst_mem hsucc.ne_entry loss
    exact ih (hmid.finish hreach') hreach' hrest

/-- **Crash consistency of SSA values and allocas.** For every function in SSA form, every set
of region starts, every path from the entry block and every choice of power losses at its
boundaries, the uses of SSA values and the loads from allocas observe what they observe in the
uninstrumented run. Undefined initial contents of registers and backups are arbitrary. -/
theorem ssa_crash_consistency (F : SSAFunction σ Val) (regionStart : BlockId → Bool)
    (m : SSACode.Machine σ Val) (regs : InstId → Val)
    (w : List (BlockId × Option (SSACode.Lost Val)))
    (hhead : (w.map Prod.fst).head? = some F.cfg.entryBlock)
    (hchain : List.IsChain F.cfg.Succ (w.map Prod.fst)) :
    (F.runInstr regionStart none m w).trace =
      (F.run none ⟨m.world, regs, F.entryStack regionStart m, m.trace⟩
        (w.map Prod.fst)).trace := by
  match w, hhead with
  | (b, loss) :: w, hhead =>
    obtain rfl : b = F.cfg.entryBlock := by simpa using hhead
    have hmid := entry_mid (s := ⟨m.world, regs, F.entryStack regionStart m, m.trace⟩) rfl rfl
      rfl loss
    exact (hmid.finish .refl).run .refl hchain

/-! ### A loop with a PHI and an alloca -/

/-- Block `0` fills an alloca of two bytes, block `1` is a loop header with the PHI `0`, block
`2` adds the bytes to it and overwrites one of them, block `3` returns the sum. -/
def summingCode : SSACode Unit ℕ where
  cfg := .ofTable [(.branch [1], 1), (.branch [2, 3], 1), (.branch [1], 1), (.ret, 1)]
    (by decide) (by decide) (by simp)
  phis b := if b = 1 then [⟨0, [(0, .const 0), (2, .inst 3)]⟩] else []
  body b :=
    if b = 0 then [.store [] (.direct 0) 2 fun _ k => if k = 0 then 5 else 1]
    else if b = 1 then
      [.call (some 1) [.inst 0, .const 2] []
        fun w vals stack => (w, if vals.getD 0 0 < vals.getD 1 0 then 1 else 0, stack)]
    else if b = 2 then
      [.load 2 [] (.direct 0) 2 fun bytes => (bytes.map UInt8.toNat).sum,
        .call (some 3) [.inst 0, .inst 2] [] fun w vals stack => (w, vals.sum, stack),
        .store [.inst 0] (.derived fun _ => (0, 1)) 1
          fun vals _ => UInt8.ofNat (vals.getD 0 0)]
    else []
  termArgs b := if b = 1 then [.inst 1] else if b = 3 then [.inst 0] else []
  allocas := [0]
  allocaType _ := .bytes 2
  defBlock v := if v ≤ 1 then 1 else 2
  isPhi v := v = 0
  sizeBytes _ := 2
  null := 0
  isRef i a :=
    match i with
    | .call _ _ frame _ => a ∈ frame
    | .load _ _ (.direct d) _ _ => d = a
    | .memcpy _ _ (.direct d) _ => d = a
    | .load _ _ (.derived _) _ _ => true
    | .memcpy _ _ (.derived _) _ => true
    | _ => false
  isMod i a :=
    match i with
    | .call _ _ frame _ => a ∈ frame
    | .load .. => false
    | _ => true

/-- `summingCode` is in SSA form. -/
def summing : SSAFunction Unit ℕ where
  toSSACode := summingCode
  allocas_nodup := by decide
  values_nodup := by decide +kernel
  phi_def := by decide +kernel
  instr_def := by decide +kernel
  entry_phis := rfl
  phi_incoming := by decide +kernel
  phi_avail := by decide +kernel
  body_avail := by decide +kernel
  ref_sound := by
    rintro (⟨_, _, frame, _⟩ | ⟨_, _, ptr, _, _⟩ | _ | _ | ⟨_, _, src, _⟩) a h
    · exact decide_eq_true h
    · cases ptr <;> simp_all [Instr.MayRead, summingCode, Pointer.resolve]
    · exact absurd h id
    · exact absurd h id
    · cases src <;> simp_all [Instr.MayRead, summingCode, Pointer.resolve]
  read_mem := by
    intro b _ i hi a ha
    simp only [summingCode] at hi
    split_ifs at hi
    · obtain rfl := List.mem_singleton.mp hi
      exact absurd ha id
    · obtain rfl := List.mem_singleton.mp hi
      exact absurd ha List.not_mem_nil
    · simp only [List.mem_cons, List.not_mem_nil, or_false] at hi
      rcases hi with rfl | rfl | rfl
      · obtain ⟨vals, rfl⟩ := ha
        exact List.mem_singleton_self _
      · exact absurd ha List.not_mem_nil
      · exact absurd ha id
    · exact absurd hi List.not_mem_nil

/-- Two rounds of the loop with a boundary in every block, each losing everything. -/
theorem ssa_crash_consistency_summing :
    (summing.runInstr (fun _ => true) none ⟨(), fun _ => 7, fun _ => 8, fun _ _ => 9,
        fun _ => 0, fun _ _ => 0, []⟩
      ([0, 1, 2, 1, 3].map fun b => (b, some ⟨fun _ => 1, fun _ => 2, fun _ _ => 3⟩))).trace =
    (summing.run none ⟨(), fun _ => 7, summing.entryStack (fun _ => true) ⟨(), fun _ => 7,
        fun _ => 8, fun _ _ => 9, fun _ => 0, fun _ _ => 0, []⟩, []⟩ [0, 1, 2, 1, 3]).trace :=
  ssa_crash_consistency summing _ _ _ _ rfl (by decide)

end SSAFunction

end Bao.Milp
