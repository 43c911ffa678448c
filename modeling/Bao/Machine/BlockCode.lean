import Bao.Machine.Effects

/-!
# Code in basic blocks

A piece of code here is a list of basic blocks in their layout order. A block has PHIs, a body and
a terminator. The instructions `ι`, what terminators depend on `τ`, the notes `μ` that an
unconditional branch may carry, and the assignments `ν` of PHIs are arbitrary types; a `Meaning`
says what they do to a state.

Three changes of the code keep its behaviour: a block is split (`splitBlock`), an empty block is put
on an edge (`splitEdge`), and instructions and notes are replaced by ones that mean the same
(`rewrite`). The new blocks get labels that the code did not use (`fresh`).
-/

namespace Bao.Machine.BlockCode

/-! ### Blocks -/

/-- A PHI: for each predecessor, what it assigns for control from there. -/
structure Phi (ν : Type*) where
  incoming : List (ℕ × ν)

/-- A terminator: an unconditional branch, a branch or switch, or one that leaves. -/
inductive Terminator (τ μ : Type*)
  | br (target : ℕ) (note : Option μ)
  | switch (t : τ) (first : ℕ) (rest : List ℕ)
  | ret (t : τ)

/-- A basic block. -/
structure Block (ι τ μ ν : Type*) where
  label : ℕ
  phis : List (Phi ν)
  insts : List ι
  term : Terminator τ μ

section Blocks

variable {ι τ μ ν : Type*}

/-- Control from `old` comes from `new` now. -/
def Phi.replaceIncoming (old new : ℕ) (φ : Phi ν) : Phi ν :=
  ⟨φ.incoming.map fun e => (if e.1 = old then new else e.1, e.2)⟩

namespace Terminator

/-- Where control may go. -/
def targets : Terminator τ μ → List ℕ
  | br target _ => [target]
  | switch _ first rest => first :: rest
  | ret _ => []

/-- All edges to `old` go to `new` now. -/
def replaceSuccessor (old new : ℕ) : Terminator τ μ → Terminator τ μ
  | br target note => br (if target = old then new else target) note
  | switch t first rest =>
    switch t (if first = old then new else first) (rest.map fun c => if c = old then new else c)
  | ret t => ret t

theorem targets_replaceSuccessor (t : Terminator τ μ) (old new : ℕ) :
    (t.replaceSuccessor old new).targets =
      t.targets.map fun c => if c = old then new else c := by
  cases t <;> rfl

end Terminator

namespace Block

/-- `replacePhiUsesWith`. -/
def replacePhiUses (old new : ℕ) (B : Block ι τ μ ν) : Block ι τ μ ν :=
  { B with phis := B.phis.map (Phi.replaceIncoming old new) }

/-- What the PHIs assign for control from `p`. -/
def assignments (p : ℕ) (B : Block ι τ μ ν) : List ν :=
  B.phis.filterMap fun φ => φ.incoming.lookup p

/-- The labels the PHIs name. -/
def incoming (B : Block ι τ μ ν) : List ℕ := B.phis.flatMap fun φ => φ.incoming.map Prod.fst

/-- The instructions before position `k`, and a branch to the others. -/
def front (k new : ℕ) (B : Block ι τ μ ν) : Block ι τ μ ν :=
  { B with insts := B.insts.take k, term := .br new none }

/-- The instructions from position `k` on, with the terminator. -/
def back (k new : ℕ) (B : Block ι τ μ ν) : Block ι τ μ ν where
  label := new
  phis := []
  insts := B.insts.drop k
  term := B.term

@[simp] theorem label_replacePhiUses (old new : ℕ) (B : Block ι τ μ ν) :
    (B.replacePhiUses old new).label = B.label := rfl

@[simp] theorem insts_replacePhiUses (old new : ℕ) (B : Block ι τ μ ν) :
    (B.replacePhiUses old new).insts = B.insts := rfl

@[simp] theorem term_replacePhiUses (old new : ℕ) (B : Block ι τ μ ν) :
    (B.replacePhiUses old new).term = B.term := rfl

theorem incoming_replacePhiUses (old new : ℕ) (B : Block ι τ μ ν) :
    (B.replacePhiUses old new).incoming = B.incoming.map fun l => if l = old then new else l := by
  simp [incoming, replacePhiUses, Phi.replaceIncoming, List.flatMap_map, List.map_flatMap,
    Function.comp_def]

private theorem lookup_map_of_ne {old new p : ℕ} (hold : p ≠ old) (hnew : p ≠ new)
    (l : List (ℕ × ν)) :
    (l.map fun e => (if e.1 = old then new else e.1, e.2)).lookup p = l.lookup p := by
  induction l with
  | nil => rfl
  | cons e l ih =>
    rw [List.map_cons, List.lookup_cons, List.lookup_cons, ih]
    by_cases he : e.1 = old
    · rw [if_pos he, beq_false_of_ne hnew, beq_false_of_ne (he ▸ hold)]
    · rw [if_neg he]

private theorem lookup_map_new {old new : ℕ} (l : List (ℕ × ν))
    (hnew : new ∉ l.map Prod.fst) :
    (l.map fun e => (if e.1 = old then new else e.1, e.2)).lookup new = l.lookup old := by
  induction l with
  | nil => rfl
  | cons e l ih =>
    obtain ⟨hne, hnew⟩ : new ≠ e.1 ∧ new ∉ l.map Prod.fst := by simpa using hnew
    rw [List.map_cons, List.lookup_cons, List.lookup_cons, ih hnew]
    by_cases he : e.1 = old
    · rw [if_pos he, he]
      simp
    · rw [if_neg he, beq_false_of_ne hne, beq_false_of_ne (Ne.symm he)]

/-- Other predecessors see the same assignments. -/
theorem assignments_replacePhiUses_of_ne {old new p : ℕ} (hold : p ≠ old) (hnew : p ≠ new)
    (B : Block ι τ μ ν) : (B.replacePhiUses old new).assignments p = B.assignments p := by
  rw [assignments, replacePhiUses, List.filterMap_map, assignments]
  exact List.filterMap_congr fun φ _ => lookup_map_of_ne hold hnew φ.incoming

/-- The new predecessor sees the assignments for the old one. -/
theorem assignments_replacePhiUses_new {old new : ℕ} {B : Block ι τ μ ν} (hnew : new ∉ B.incoming) :
    (B.replacePhiUses old new).assignments new = B.assignments old := by
  rw [assignments, replacePhiUses, List.filterMap_map, assignments]
  refine List.filterMap_congr fun φ hφ => lookup_map_new φ.incoming fun h => hnew ?_
  exact List.mem_flatMap.mpr ⟨φ, hφ, h⟩

end Block

/-- Where keys are unique, a search by key finds the element. -/
theorem find?_of_nodup {α : Type*} {key : α → ℕ} {l : List α} (h : (l.map key).Nodup) {a : α}
    (ha : a ∈ l) : (l.find? fun b => key b = key a) = some a := by
  obtain ⟨b, hb⟩ : ∃ b, (l.find? fun b => key b = key a) = some b :=
    Option.isSome_iff_exists.mp (List.find?_isSome.mpr ⟨a, ha, by simp⟩)
  have hkey : key b = key a := by simpa using List.find?_some hb
  rw [hb, List.inj_on_of_nodup_map h (List.mem_of_find?_eq_some hb) ha hkey]

/-- **Code**: labels are unique, and terminators and PHIs name labels of the code only. -/
structure Code (ι τ μ ν : Type*) where
  blocks : List (Block ι τ μ ν)
  nodup_labels : (blocks.map Block.label).Nodup
  closed : ∀ B ∈ blocks, ∀ l ∈ B.term.targets, l ∈ blocks.map Block.label
  incoming_mem : ∀ B ∈ blocks, ∀ l ∈ B.incoming, l ∈ blocks.map Block.label

namespace Code

variable (F : Code ι τ μ ν)

/-- The labels in layout order. -/
def labels : List ℕ := F.blocks.map Block.label

/-- The instructions in layout order. -/
def insts : List ι := F.blocks.flatMap Block.insts

/-- The block with a label. -/
def find (l : ℕ) : Option (Block ι τ μ ν) := F.blocks.find? fun B => B.label = l

variable {F}

theorem find_eq_some {l : ℕ} {B : Block ι τ μ ν} :
    F.find l = some B ↔ B ∈ F.blocks ∧ B.label = l := by
  refine ⟨fun h => ⟨List.mem_of_find?_eq_some h, by simpa using List.find?_some h⟩, ?_⟩
  rintro ⟨hB, rfl⟩
  exact find?_of_nodup F.nodup_labels hB

theorem mem_labels {l : ℕ} : l ∈ F.labels ↔ ∃ B ∈ F.blocks, B.label = l := List.mem_map

theorem find_of_mem {B : Block ι τ μ ν} (hB : B ∈ F.blocks) : F.find B.label = some B :=
  find_eq_some.mpr ⟨hB, rfl⟩

theorem eq_of_label {B C : Block ι τ μ ν} (hB : B ∈ F.blocks) (hC : C ∈ F.blocks)
    (h : B.label = C.label) : B = C :=
  List.inj_on_of_nodup_map F.nodup_labels hB hC h

variable (F)

/-- A label that is not in use. -/
def fresh : ℕ := F.labels.foldr max 0 + 1

theorem fresh_notMem : F.fresh ∉ F.labels := by
  have hle : ∀ (ls : List ℕ), ∀ l ∈ ls, l ≤ ls.foldr max 0 := by
    intro ls
    induction ls with
    | nil => simp
    | cons a ls ih =>
      intro l hl
      rw [List.foldr_cons]
      rcases List.mem_cons.mp hl with rfl | hl
      · exact le_max_left _ _
      · exact (ih l hl).trans (le_max_right _ _)
  intro h
  have := hle _ _ h
  rw [fresh] at this
  omega

/-- The fresh label is in nobody's PHIs. -/
theorem fresh_notMem_incoming {B : Block ι τ μ ν} (hB : B ∈ F.blocks) : F.fresh ∉ B.incoming :=
  fun h => F.fresh_notMem (F.incoming_mem B hB _ h)

end Code

end Blocks

/-! ### Execution -/

/-- What instructions, terminators and assignments do to states `σ`, with side effects `ε` and
results `υ`. The assignments of a block are made at once. -/
structure Meaning (ι τ ν σ ε υ : Type*) where
  exec : ι → σ → σ × List ε
  choose : τ → σ → ℕ
  leave : τ → σ → υ
  assign : List ν → σ → σ
  assign_nil : ∀ s, assign [] s = s

/-- A configuration: in a block, after its PHIs, or returned. -/
inductive Config (σ υ : Type*)
  | at (l : ℕ) (s : σ)
  | returned (v : υ)

section Execution

variable {ι τ μ ν σ ε υ : Type*} (M : Meaning ι τ ν σ ε υ)

/-- The instructions of a block, one after the other. -/
def runInsts : List ι → σ → σ × List ε
  | [], s => (s, [])
  | i :: is, s =>
    let r := M.exec i s
    let t := runInsts is r.1
    (t.1, r.2 ++ t.2)

theorem runInsts_append (is js : List ι) (s : σ) : runInsts M (is ++ js) s =
    ((runInsts M js (runInsts M is s).1).1,
      (runInsts M is s).2 ++ (runInsts M js (runInsts M is s).1).2) := by
  induction is generalizing s with
  | nil => rfl
  | cons i is ih =>
    rw [List.cons_append, runInsts, ih, runInsts]
    simp only [List.append_assoc]

/-- Where control goes, or what is returned. -/
def Terminator.next (s : σ) : Terminator τ μ → ℕ ⊕ υ
  | .br target _ => .inl target
  | .switch t first rest => .inl ((first :: rest).getD (M.choose t s) first)
  | .ret t => .inr (M.leave t s)

theorem Terminator.next_replaceSuccessor (t : Terminator τ μ) (old new : ℕ) (s : σ) :
    (t.replaceSuccessor old new).next M s =
      (t.next M s).map (fun c => if c = old then new else c) id := by
  cases t with
  | br target note => rfl
  | switch t first rest =>
    simp only [replaceSuccessor, next, Sum.map_inl]
    rw [← List.map_cons (f := fun c => if c = old then new else c), List.getD_map]
  | ret t => rfl

theorem Terminator.mem_targets_of_next {t : Terminator τ μ} {s : σ} {c : ℕ}
    (h : t.next M s = .inl c) : c ∈ t.targets := by
  cases t with
  | br target note => simpa [next, targets, eq_comm] using h
  | switch t first rest =>
    simp only [next, Sum.inl.injEq] at h
    rw [← h, targets]
    by_cases hlt : M.choose t s < (first :: rest).length
    · rw [List.getD_eq_getElem _ _ hlt]
      exact List.getElem_mem hlt
    · rw [List.getD_eq_default _ _ (by omega)]
      exact List.mem_cons_self ..
  | ret t => simp [next] at h

namespace Code

variable (F : Code ι τ μ ν)

/-- The state after the PHIs of block `c` for control from `p`. -/
def enter (p c : ℕ) (s : σ) : σ :=
  match F.find c with
  | some C => M.assign (C.assignments p) s
  | none => s

/-- Execution of one block. -/
def step : Config σ υ → Config σ υ
  | .at l s =>
    match F.find l with
    | some B =>
      let s' := (runInsts M B.insts s).1
      match B.term.next M s' with
      | .inl c => .at c (F.enter M l c s')
      | .inr v => .returned v
    | none => .at l s
  | .returned v => .returned v

/-- The side effects of one block. -/
def effects : Config σ υ → List ε
  | .at l s =>
    match F.find l with
    | some B => (runInsts M B.insts s).2
    | none => []
  | .returned _ => []

/-- The code as a program. -/
def program : EffectProgram (Config σ υ) ε υ where
  step := F.step M
  effects := F.effects M
  result
    | .at _ _ => none
    | .returned v => some v
  step_of_result {c v} h := by
    rcases c with _ | _
    · cases h
    · rfl
  effects_of_result {c v} h := by
    rcases c with _ | _
    · cases h
    · rfl

@[simp] theorem program_step (c : Config σ υ) : (F.program M).step c = F.step M c := rfl

@[simp] theorem program_effects (c : Config σ υ) : (F.program M).effects c = F.effects M c := rfl

/-- The configurations whose block is in the code. -/
def Inside : Config σ υ → Prop
  | .at l _ => l ∈ F.labels
  | .returned _ => True

variable {F M}

theorem step_at {B : Block ι τ μ ν} (hB : B ∈ F.blocks) (s : σ) :
    F.step M (.at B.label s) = match B.term.next M (runInsts M B.insts s).1 with
      | .inl c => .at c (F.enter M B.label c (runInsts M B.insts s).1)
      | .inr v => .returned v := by
  rw [step, find_of_mem hB]

theorem effects_at {B : Block ι τ μ ν} (hB : B ∈ F.blocks) (s : σ) :
    F.effects M (.at B.label s) = (runInsts M B.insts s).2 := by
  rw [effects, find_of_mem hB]

theorem enter_of_mem {C : Block ι τ μ ν} (hC : C ∈ F.blocks) (p : ℕ) (s : σ) :
    F.enter M p C.label s = M.assign (C.assignments p) s := by
  rw [enter, find_of_mem hC]

theorem mem_labels_of_next {B : Block ι τ μ ν} (hB : B ∈ F.blocks) {s : σ} {c : ℕ}
    (h : B.term.next M s = .inl c) : ∃ C ∈ F.blocks, C.label = c :=
  mem_labels.mp (F.closed B hB c (B.term.mem_targets_of_next M h))

/-- Control stays in the code. -/
theorem inside_step {c : Config σ υ} (h : F.Inside c) : F.Inside (F.step M c) := by
  rcases c with ⟨l, s⟩ | v
  · obtain ⟨B, hB, rfl⟩ := mem_labels.mp h
    rw [step_at hB]
    split
    · next c hc => exact mem_labels.mpr (mem_labels_of_next hB hc)
    · trivial
  · trivial

/-- **Two pieces of code behave the same** if each block of one is followed by blocks of the other
that perform the same and lead to the same configuration. -/
theorem sameBehaviour_of_blocks {G : Code ι τ μ ν}
    (h : ∀ B ∈ F.blocks, ∀ s, ∃ n, 0 < n ∧
      F.effects M (.at B.label s) = (G.program M).performed (.at B.label s) n ∧
      F.step M (.at B.label s) = (G.program M).step^[n] (.at B.label s))
    {c : Config σ υ} (hc : F.Inside c) :
    EffectProgram.SameBehaviour (F.program M) (G.program M) c c := by
  refine EffectProgram.sameBehaviour_of_follows (R := fun c d => c = d ∧ F.Inside c) ?_ ?_ ⟨rfl, hc⟩
  · rintro c _ ⟨rfl, hc⟩
    rcases c with ⟨l, s⟩ | v
    · obtain ⟨B, hB, rfl⟩ := mem_labels.mp hc
      obtain ⟨n, hpos, heffects, hstep⟩ := h B hB s
      exact ⟨n, hpos, heffects, hstep, inside_step hc⟩
    · exact ⟨1, Nat.one_pos, rfl, rfl, trivial⟩
  · rintro c _ ⟨rfl, -⟩
    rcases c with _ | _ <;> rfl

end Code

end Execution

/-! ### New blocks -/

section NewBlocks

variable {ι τ μ ν : Type*}

/-- The labels after every block became its `piece`, a new label `n` next to `a` only. -/
private theorem perm_labels {piece : Block ι τ μ ν → List (Block ι τ μ ν)} {a n : ℕ}
    {blocks : List (Block ι τ μ ν)} (hnodup : (blocks.map Block.label).Nodup)
    (hpiece : ∀ B ∈ blocks, ((piece B).map Block.label).Perm
      (if B.label = a then [n, B.label] else [B.label])) :
    ((blocks.flatMap piece).map Block.label).Perm
      (if a ∈ blocks.map Block.label then n :: blocks.map Block.label
        else blocks.map Block.label) := by
  induction blocks with
  | nil => exact .refl _
  | cons B blocks ih =>
    obtain ⟨hB, hnodup⟩ := List.nodup_cons.mp hnodup
    have ih := ih hnodup fun C hC => hpiece C (List.mem_cons_of_mem _ hC)
    have hhead := hpiece B (List.mem_cons_self ..)
    rw [List.flatMap_cons, List.map_append, List.map_cons]
    by_cases hBa : B.label = a
    · rw [if_pos hBa] at hhead
      rw [if_neg (hBa ▸ hB)] at ih
      rw [if_pos (List.mem_cons.mpr (.inl hBa.symm))]
      exact hhead.append ih
    · rw [if_neg hBa] at hhead
      refine (hhead.append ih).trans ?_
      by_cases ha : a ∈ blocks.map Block.label
      · rw [if_pos ha, if_pos (List.mem_cons_of_mem _ ha)]
        exact .swap ..
      · rw [if_neg ha, if_neg (by simp [Ne.symm hBa, ha])]
        exact .refl _

namespace Code

variable (F : Code ι τ μ ν)

/-- Where control may go from `b`. -/
def targetsOf (b : ℕ) : List ℕ := ((F.find b).map fun B => B.term.targets).getD []

/-- A block when `b` is split at `k`: its successors see a new predecessor. -/
def splitPiece (b k : ℕ) (B : Block ι τ μ ν) : List (Block ι τ μ ν) :=
  let B' := if B.label ∈ F.targetsOf b then B.replacePhiUses b F.fresh else B
  if B.label = b then [B'.front k F.fresh, B'.back k F.fresh] else [B']

/-- A block when the edge from `e` to `p` is split: the new block is laid out before `p`. -/
def edgePiece (e p : ℕ) (B : Block ι τ μ ν) : List (Block ι τ μ ν) :=
  let B' := if B.label = e then { B with term := B.term.replaceSuccessor p F.fresh } else B
  if B.label = p then [⟨F.fresh, [], [], .br p none⟩, B'.replacePhiUses e F.fresh] else [B']

variable {F}

private theorem label_splitPiece (b k : ℕ) (B : Block ι τ μ ν) :
    ((F.splitPiece b k B).map Block.label).Perm
      (if B.label = b then [F.fresh, B.label] else [B.label]) := by
  rw [splitPiece]
  by_cases hB : B.label = b
  · rw [if_pos hB, if_pos hB]
    refine .trans (.of_eq ?_) (.swap ..)
    simp only [List.map_cons, List.map_nil, Block.front, Block.back]
    split_ifs <;> rfl
  · rw [if_neg hB, if_neg hB]
    split_ifs <;> exact .refl _

private theorem label_edgePiece (e p : ℕ) (B : Block ι τ μ ν) :
    ((F.edgePiece e p B).map Block.label).Perm
      (if B.label = p then [F.fresh, B.label] else [B.label]) := by
  rw [edgePiece]
  by_cases hB : B.label = p
  · rw [if_pos hB, if_pos hB]
    simp only [List.map_cons, List.map_nil, Block.label_replacePhiUses]
    split_ifs <;> exact .refl _
  · rw [if_neg hB, if_neg hB]
    split_ifs <;> exact .refl _

private theorem mem_perm_labels {a l : ℕ} {ls : List ℕ}
    (h : ls.Perm (if a ∈ F.labels then F.fresh :: F.labels else F.labels)) :
    l ∈ ls ↔ l ∈ F.labels ∨ l = F.fresh ∧ a ∈ F.labels := by
  rw [h.mem_iff]
  split_ifs with ha
  · simp [ha, or_comm]
  · simp [ha]

private theorem nodup_perm_labels {a : ℕ} {ls : List ℕ}
    (h : ls.Perm (if a ∈ F.labels then F.fresh :: F.labels else F.labels)) : ls.Nodup := by
  rw [h.nodup_iff]
  split_ifs
  · exact List.nodup_cons.mpr ⟨F.fresh_notMem, F.nodup_labels⟩
  · exact F.nodup_labels

theorem targetsOf_eq {B : Block ι τ μ ν} (hB : B ∈ F.blocks) :
    F.targetsOf B.label = B.term.targets := by
  rw [targetsOf, find_of_mem hB, Option.map_some, Option.getD_some]

private theorem mem_of_mem_targetsOf {b l : ℕ} (h : l ∈ F.targetsOf b) :
    b ∈ F.labels ∧ l ∈ F.labels := by
  rw [targetsOf] at h
  rcases hb : F.find b with _ | B
  · simp [hb] at h
  · obtain ⟨hB, rfl⟩ := find_eq_some.mp hb
    rw [hb] at h
    exact ⟨mem_labels.mpr ⟨B, hB, rfl⟩, F.closed B hB l h⟩

private theorem mem_splitPiece {b k : ℕ} {B C : Block ι τ μ ν} (hC : C ∈ F.splitPiece b k B) :
    (∀ l ∈ C.term.targets, l ∈ B.term.targets ∨ l = F.fresh ∧ B.label = b) ∧
      ∀ l ∈ C.incoming, l ∈ B.incoming ∨ l = F.fresh ∧ B.label ∈ F.targetsOf b := by
  set B' := if B.label ∈ F.targetsOf b then B.replacePhiUses b F.fresh else B with hB'
  have hterm : B'.term = B.term := by rw [hB']; split_ifs <;> rfl
  have hincoming : ∀ l ∈ B'.incoming, l ∈ B.incoming ∨ l = F.fresh ∧ B.label ∈ F.targetsOf b := by
    intro l hl
    rw [hB'] at hl
    split_ifs at hl with hmem
    · rw [Block.incoming_replacePhiUses] at hl
      obtain ⟨l', hl', rfl⟩ := List.mem_map.mp hl
      split_ifs
      · exact .inr ⟨rfl, hmem⟩
      · exact .inl hl'
    · exact .inl hl
  rw [splitPiece, ← hB'] at hC
  split_ifs at hC with hb
  · rcases List.mem_pair.mp hC with rfl | rfl
    · exact ⟨fun l hl => .inr ⟨List.mem_singleton.mp hl, hb⟩, hincoming⟩
    · exact ⟨fun l hl => .inl (hterm ▸ hl), fun l hl => by simp [Block.incoming, Block.back] at hl⟩
  · obtain rfl := List.mem_singleton.mp hC
    exact ⟨fun l hl => .inl (hterm ▸ hl), hincoming⟩

private theorem mem_edgePiece {e p : ℕ} {B C : Block ι τ μ ν} (hC : C ∈ F.edgePiece e p B) :
    (∀ l ∈ C.term.targets, l ∈ B.term.targets ∨ l = F.fresh ∧ p ∈ B.term.targets ∨
        l = p ∧ B.label = p) ∧
      ∀ l ∈ C.incoming, l ∈ B.incoming ∨ l = F.fresh ∧ B.label = p := by
  set B' := if B.label = e then { B with term := B.term.replaceSuccessor p F.fresh } else B with hB'
  have hterm : ∀ l ∈ B'.term.targets, l ∈ B.term.targets ∨ l = F.fresh ∧ p ∈ B.term.targets := by
    intro l hl
    rw [hB'] at hl
    split_ifs at hl
    · rw [Terminator.targets_replaceSuccessor] at hl
      obtain ⟨l', hl', rfl⟩ := List.mem_map.mp hl
      split_ifs with hlp
      · exact .inr ⟨rfl, hlp ▸ hl'⟩
      · exact .inl hl'
    · exact .inl hl
  have hincoming : B'.incoming = B.incoming := by rw [hB']; split_ifs <;> rfl
  rw [edgePiece, ← hB'] at hC
  split_ifs at hC with hp
  · rcases List.mem_pair.mp hC with rfl | rfl
    · exact ⟨fun l hl => .inr (.inr ⟨List.mem_singleton.mp hl, hp⟩), fun l hl => by
        simp [Block.incoming] at hl⟩
    · refine ⟨fun l hl => (hterm l hl).imp_right .inl, fun l hl => ?_⟩
      rw [Block.incoming_replacePhiUses, hincoming] at hl
      obtain ⟨l', hl', rfl⟩ := List.mem_map.mp hl
      split_ifs
      · exact .inr ⟨rfl, hp⟩
      · exact .inl hl'
  · obtain rfl := List.mem_singleton.mp hC
    exact ⟨fun l hl => (hterm l hl).imp_right .inl, fun l hl => .inl (hincoming ▸ hl)⟩

variable (F)

/-- **`splitBasicBlock`**: the instructions of block `b` from position `k` on move to a new block
right behind it, with the terminator. -/
def splitBlock (b k : ℕ) : Code ι τ μ ν where
  blocks := F.blocks.flatMap (F.splitPiece b k)
  nodup_labels := nodup_perm_labels (perm_labels F.nodup_labels fun B _ => label_splitPiece b k B)
  closed := by
    intro C hC l hl
    obtain ⟨B, hB, hC⟩ := List.mem_flatMap.mp hC
    rw [mem_perm_labels (perm_labels F.nodup_labels fun B _ => label_splitPiece b k B)]
    refine ((mem_splitPiece hC).1 l hl).imp (F.closed B hB l) ?_
    exact fun ⟨hl, hb⟩ => ⟨hl, mem_labels.mpr ⟨B, hB, hb⟩⟩
  incoming_mem := by
    intro C hC l hl
    obtain ⟨B, hB, hC⟩ := List.mem_flatMap.mp hC
    rw [mem_perm_labels (perm_labels F.nodup_labels fun B _ => label_splitPiece b k B)]
    refine ((mem_splitPiece hC).2 l hl).imp (F.incoming_mem B hB l) ?_
    exact fun ⟨hl, hb⟩ => ⟨hl, (mem_of_mem_targetsOf hb).1⟩

/-- **`SplitEdge`**: a new empty block takes all edges from `e` to `p`. -/
def splitEdge (e p : ℕ) : Code ι τ μ ν where
  blocks := F.blocks.flatMap (F.edgePiece e p)
  nodup_labels := nodup_perm_labels (perm_labels F.nodup_labels fun B _ => label_edgePiece e p B)
  closed := by
    intro C hC l hl
    obtain ⟨B, hB, hC⟩ := List.mem_flatMap.mp hC
    rw [mem_perm_labels (perm_labels F.nodup_labels fun B _ => label_edgePiece e p B)]
    rcases (mem_edgePiece hC).1 l hl with hl | ⟨hl, hp⟩ | ⟨rfl, hp⟩
    · exact .inl (F.closed B hB l hl)
    · exact .inr ⟨hl, F.closed B hB p hp⟩
    · exact .inl (mem_labels.mpr ⟨B, hB, hp⟩)
  incoming_mem := by
    intro C hC l hl
    obtain ⟨B, hB, hC⟩ := List.mem_flatMap.mp hC
    rw [mem_perm_labels (perm_labels F.nodup_labels fun B _ => label_edgePiece e p B)]
    refine ((mem_edgePiece hC).2 l hl).imp (F.incoming_mem B hB l) ?_
    exact fun ⟨hl, hp⟩ => ⟨hl, mem_labels.mpr ⟨B, hB, hp⟩⟩

variable {F}

theorem mem_labels_splitBlock {b k l : ℕ} :
    l ∈ (F.splitBlock b k).labels ↔ l ∈ F.labels ∨ l = F.fresh ∧ b ∈ F.labels :=
  mem_perm_labels (perm_labels F.nodup_labels fun B _ => label_splitPiece b k B)

theorem mem_labels_splitEdge {e p l : ℕ} :
    l ∈ (F.splitEdge e p).labels ↔ l ∈ F.labels ∨ l = F.fresh ∧ p ∈ F.labels :=
  mem_perm_labels (perm_labels F.nodup_labels fun B _ => label_edgePiece e p B)

/-- A split moves no instruction in the layout. -/
theorem insts_splitBlock (b k : ℕ) : (F.splitBlock b k).insts = F.insts := by
  rw [insts, splitBlock, List.flatMap_assoc, insts]
  refine List.flatMap_congr fun B _ => ?_
  rw [splitPiece]
  split_ifs <;> simp [Block.front, Block.back]

theorem insts_splitEdge (e p : ℕ) : (F.splitEdge e p).insts = F.insts := by
  rw [insts, splitEdge, List.flatMap_assoc, insts]
  refine List.flatMap_congr fun B _ => ?_
  rw [edgePiece]
  split_ifs <;> simp

end Code

end NewBlocks

/-! ### Preservation of behaviour -/

section Preservation

variable {ι τ μ ν σ ε υ : Type*} {M : Meaning ι τ ν σ ε υ} {F : Code ι τ μ ν}

namespace Code

theorem inside_splitBlock {b k : ℕ} {c : Config σ υ} (h : F.Inside c) :
    (F.splitBlock b k).Inside c := by
  rcases c with ⟨l, s⟩ | v
  · exact mem_labels_splitBlock.mpr (.inl h)
  · trivial

theorem inside_splitEdge {e p : ℕ} {c : Config σ υ} (h : F.Inside c) :
    (F.splitEdge e p).Inside c := by
  rcases c with ⟨l, s⟩ | v
  · exact mem_labels_splitEdge.mpr (.inl h)
  · trivial

/-- The block `c` after a split of `b`, entered from where `p` went: the same assignments. -/
private theorem enter_splitBlock {b k p : ℕ} {C : Block ι τ μ ν} (hC : C ∈ F.blocks)
    (hp : p ∈ F.labels) (htarget : p = b → C.label ∈ F.targetsOf b) (s : σ) :
    (F.splitBlock b k).enter M (if p = b then F.fresh else p) C.label s =
      F.enter M p C.label s := by
  set C' := if C.label ∈ F.targetsOf b then C.replacePhiUses b F.fresh else C with hC'
  have hlabel : C'.label = C.label := by rw [hC']; split_ifs <;> rfl
  have hassign : C'.assignments (if p = b then F.fresh else p) = C.assignments p := by
    by_cases hpb : p = b
    · rw [if_pos hpb, hC', if_pos (htarget hpb), hpb]
      exact Block.assignments_replacePhiUses_new (F.fresh_notMem_incoming hC)
    · have hfresh : p ≠ F.fresh := fun h => F.fresh_notMem (h ▸ hp)
      rw [if_neg hpb, hC']
      split_ifs
      · exact Block.assignments_replacePhiUses_of_ne hpb hfresh C
      · rfl
  rw [enter_of_mem hC, ← hassign]
  -- the PHIs stay at the top of a block that is split itself
  by_cases hCb : C.label = b
  · have hmem : C'.front k F.fresh ∈ (F.splitBlock b k).blocks := by
      refine List.mem_flatMap.mpr ⟨C, hC, ?_⟩
      rw [splitPiece, ← hC', if_pos hCb]
      exact List.mem_cons_self ..
    rw [← hlabel]
    exact enter_of_mem hmem _ s
  · have hmem : C' ∈ (F.splitBlock b k).blocks := by
      refine List.mem_flatMap.mpr ⟨C, hC, ?_⟩
      rw [splitPiece, ← hC', if_neg hCb]
      exact List.mem_singleton_self _
    rw [← hlabel]
    exact enter_of_mem hmem _ s

/-- A block without PHIs is entered with the state as it is. -/
private theorem enter_of_no_phis {C : Block ι τ μ ν} (hC : C ∈ F.blocks) (hphis : C.phis = [])
    (p : ℕ) (s : σ) : F.enter M p C.label s = s := by
  rw [enter_of_mem hC, Block.assignments, hphis, List.filterMap_nil, M.assign_nil]

/-- An empty first block, or the first of two halves, hands over to the second one. -/
private theorem follow_two {C D : Block ι τ μ ν} (hC : C ∈ F.blocks) (hD : D ∈ F.blocks)
    (hphis : D.phis = []) (hterm : ∀ s, C.term.next M s = .inl D.label) (s : σ) :
    (F.program M).performed (.at C.label s) 2 = (runInsts M (C.insts ++ D.insts) s).2 ∧
      (F.program M).step^[2] (.at C.label s) =
        match D.term.next M (runInsts M (C.insts ++ D.insts) s).1 with
        | .inl c => .at c (F.enter M D.label c (runInsts M (C.insts ++ D.insts) s).1)
        | .inr v => .returned v := by
  have hfirst : F.step M (.at C.label s) = .at D.label (runInsts M C.insts s).1 := by
    rw [step_at hC, hterm]
    simp only
    rw [enter_of_no_phis hD hphis]
  rw [runInsts_append]
  refine ⟨?_, ?_⟩
  · rw [EffectProgram.performed, EffectProgram.performed, EffectProgram.performed, program_effects,
      program_step, program_effects, effects_at hC, hfirst, effects_at hD, List.append_nil]
  · rw [Function.iterate_succ_apply, Function.iterate_one, program_step, program_step, hfirst,
      step_at hD]

/-- **Splitting a block keeps the behaviour** of the code, from every block. -/
theorem sameBehaviour_splitBlock (b k : ℕ) {c : Config σ υ} (hc : F.Inside c) :
    EffectProgram.SameBehaviour (F.program M) ((F.splitBlock b k).program M) c c := by
  refine sameBehaviour_of_blocks (fun B hB s => ?_) hc
  set B' := if B.label ∈ F.targetsOf b then B.replacePhiUses b F.fresh else B with hB'
  have hlabel : B'.label = B.label := by rw [hB']; split_ifs <;> rfl
  have hinsts : B'.insts = B.insts := by rw [hB']; split_ifs <;> rfl
  have hterm : B'.term = B.term := by rw [hB']; split_ifs <;> rfl
  have hmem : B.label ∈ F.labels := mem_labels.mpr ⟨B, hB, rfl⟩
  have htarget : ∀ c s, B.term.next M s = .inl c → B.label = b → c ∈ F.targetsOf b := by
    rintro c s hc rfl
    rw [targetsOf_eq hB]
    exact B.term.mem_targets_of_next M hc
  rw [effects_at hB, step_at hB]
  by_cases hb : B.label = b
  · -- two blocks, and the second one leaves
    have hfront : B'.front k F.fresh ∈ (F.splitBlock b k).blocks := by
      refine List.mem_flatMap.mpr ⟨B, hB, ?_⟩
      rw [splitPiece, ← hB', if_pos hb]
      exact List.mem_cons_self ..
    have hback : B'.back k F.fresh ∈ (F.splitBlock b k).blocks := by
      refine List.mem_flatMap.mpr ⟨B, hB, ?_⟩
      rw [splitPiece, ← hB', if_pos hb]
      exact List.mem_cons_of_mem _ (List.mem_singleton_self _)
    have happend : (B'.front k F.fresh).insts ++ (B'.back k F.fresh).insts = B.insts := by
      rw [← hinsts]
      exact List.take_append_drop k B'.insts
    obtain ⟨hperformed, hstep⟩ := follow_two (M := M) hfront hback rfl (fun _ => rfl) s
    rw [happend] at hperformed hstep
    refine ⟨2, Nat.two_pos, ?_, ?_⟩
    · rw [← hlabel]
      exact hperformed.symm
    · rw [← hlabel]
      refine Eq.trans ?_ hstep.symm
      rw [hlabel, Block.back, hterm]
      split
      · next c hc =>
          obtain ⟨C, hC, rfl⟩ := mem_labels_of_next hB hc
          have henter := enter_splitBlock (M := M) (b := b) (k := k) hC hmem
            (htarget C.label _ hc) (runInsts M B.insts s).1
          rw [if_pos hb] at henter
          rw [henter]
      · rfl
  · have hB'mem : B' ∈ (F.splitBlock b k).blocks := by
      refine List.mem_flatMap.mpr ⟨B, hB, ?_⟩
      rw [splitPiece, ← hB', if_neg hb]
      exact List.mem_singleton_self _
    refine ⟨1, Nat.one_pos, ?_, ?_⟩
    · rw [EffectProgram.performed, EffectProgram.performed, program_effects, ← hlabel,
        effects_at hB'mem, hinsts, List.append_nil]
    · rw [Function.iterate_one, program_step, ← hlabel, step_at hB'mem, hinsts, hterm, hlabel]
      split
      · next c hc =>
          obtain ⟨C, hC, rfl⟩ := mem_labels_of_next hB hc
          have henter := enter_splitBlock (M := M) (b := b) (k := k) hC hmem
            (htarget C.label _ hc) (runInsts M B.insts s).1
          rw [if_neg hb] at henter
          rw [henter]
      · rfl

/-- The block that stands for `C` when the edge from `e` to `p` is split. -/
private theorem exists_edgePiece {e p : ℕ} {C : Block ι τ μ ν} (hC : C ∈ F.blocks) :
    ∃ D ∈ (F.splitEdge e p).blocks, D.label = C.label ∧ D.insts = C.insts ∧
      D.term = (if C.label = e then C.term.replaceSuccessor p F.fresh else C.term) ∧
      D.phis = (if C.label = p then C.replacePhiUses e F.fresh else C).phis := by
  by_cases hp : C.label = p
  · refine ⟨(if C.label = e then { C with term := C.term.replaceSuccessor p F.fresh } else C
      ).replacePhiUses e F.fresh, List.mem_flatMap.mpr ⟨C, hC, ?_⟩, ?_⟩
    · rw [edgePiece, if_pos hp]
      exact List.mem_cons_of_mem _ (List.mem_singleton_self _)
    · rw [if_pos hp]
      split_ifs <;> exact ⟨rfl, rfl, rfl, rfl⟩
  · refine ⟨if C.label = e then { C with term := C.term.replaceSuccessor p F.fresh } else C,
      List.mem_flatMap.mpr ⟨C, hC, ?_⟩, ?_⟩
    · rw [edgePiece, if_neg hp]
      exact List.mem_singleton_self _
    · rw [if_neg hp]
      split_ifs <;> exact ⟨rfl, rfl, rfl, rfl⟩

/-- Control that does not go through the new block sees the assignments it saw. -/
private theorem enter_splitEdge_of_ne {e p q : ℕ} {C : Block ι τ μ ν} (hC : C ∈ F.blocks)
    (hq : q ∈ F.labels) (hne : ¬(q = e ∧ C.label = p)) (s : σ) :
    (F.splitEdge e p).enter M q C.label s = F.enter M q C.label s := by
  obtain ⟨D, hD, hlabel, -, -, hphis⟩ := exists_edgePiece (e := e) (p := p) hC
  have hfresh : q ≠ F.fresh := fun h => F.fresh_notMem (h ▸ hq)
  have hassign : D.assignments q = C.assignments q := by
    rw [Block.assignments, hphis]
    split_ifs with hp
    · exact Block.assignments_replacePhiUses_of_ne (fun h => hne ⟨h, hp⟩) hfresh C
    · rfl
  rw [enter_of_mem hC, ← hassign, ← hlabel, enter_of_mem hD]

/-- Control from the new block sees what control from `e` saw. -/
private theorem enter_splitEdge_fresh {e : ℕ} {C : Block ι τ μ ν} (hC : C ∈ F.blocks) (s : σ) :
    (F.splitEdge e C.label).enter M F.fresh C.label s = F.enter M e C.label s := by
  obtain ⟨D, hD, hlabel, -, -, hphis⟩ := exists_edgePiece (e := e) (p := C.label) hC
  have hassign : D.assignments F.fresh = C.assignments e := by
    rw [Block.assignments, hphis, if_pos rfl]
    exact Block.assignments_replacePhiUses_new (F.fresh_notMem_incoming hC)
  have henter := enter_of_mem (M := M) hD F.fresh s
  rwa [hlabel, hassign, ← enter_of_mem hC] at henter

/-- **An empty block on an edge keeps the behaviour** of the code, from every block. -/
theorem sameBehaviour_splitEdge (e p : ℕ) {c : Config σ υ} (hc : F.Inside c) :
    EffectProgram.SameBehaviour (F.program M) ((F.splitEdge e p).program M) c c := by
  refine sameBehaviour_of_blocks (fun B hB s => ?_) hc
  obtain ⟨D, hD, hlabel, hinsts, hterm, -⟩ := exists_edgePiece (e := e) (p := p) hB
  have hmem : B.label ∈ F.labels := mem_labels.mpr ⟨B, hB, rfl⟩
  have heffects : (F.splitEdge e p).effects M (.at B.label s) = (runInsts M B.insts s).2 := by
    rw [← hlabel, effects_at hD, hinsts]
  have hstep : (F.splitEdge e p).step M (.at B.label s) =
      match D.term.next M (runInsts M B.insts s).1 with
      | .inl c => .at c ((F.splitEdge e p).enter M B.label c (runInsts M B.insts s).1)
      | .inr v => .returned v := by
    rw [← hlabel, step_at hD, hinsts]
  have hnext : D.term.next M (runInsts M B.insts s).1 =
      if B.label = e then (B.term.next M (runInsts M B.insts s).1).map
        (fun c => if c = p then F.fresh else c) id
      else B.term.next M (runInsts M B.insts s).1 := by
    rw [hterm]
    split_ifs
    · exact B.term.next_replaceSuccessor M p F.fresh _
    · rfl
  rw [effects_at hB, step_at hB]
  by_cases hthrough : B.label = e ∧ B.term.next M (runInsts M B.insts s).1 = .inl p
  · -- through the new block, which does nothing
    obtain ⟨rfl, hgo⟩ := hthrough
    obtain ⟨C, hC, rfl⟩ := mem_labels_of_next hB hgo
    have hnew : (⟨F.fresh, [], [], .br C.label none⟩ : Block ι τ μ ν) ∈
        (F.splitEdge B.label C.label).blocks := by
      refine List.mem_flatMap.mpr ⟨C, hC, ?_⟩
      rw [edgePiece, if_pos rfl]
      exact List.mem_cons_self ..
    have hfirst : (F.splitEdge B.label C.label).step M (.at B.label s) =
        .at F.fresh (runInsts M B.insts s).1 := by
      rw [hstep, hnext, if_pos rfl, hgo]
      simp only [Sum.map_inl, if_true]
      rw [enter_of_no_phis hnew rfl]
    refine ⟨2, Nat.two_pos, ?_, ?_⟩
    · rw [EffectProgram.performed, EffectProgram.performed, EffectProgram.performed,
        program_effects, program_step, program_effects, heffects, hfirst, effects_at hnew,
        runInsts, List.append_nil, List.append_nil]
    · rw [Function.iterate_succ_apply, Function.iterate_one, program_step, program_step, hfirst,
        step_at hnew, hgo]
      simp only [Terminator.next, runInsts]
      rw [enter_splitEdge_fresh hC]
  · refine ⟨1, Nat.one_pos, ?_, ?_⟩
    · rw [EffectProgram.performed, EffectProgram.performed, program_effects, heffects,
        List.append_nil]
    · rw [Function.iterate_one, program_step, hstep, hnext]
      rcases hgo : B.term.next M (runInsts M B.insts s).1 with c | v
      · obtain ⟨C, hC, rfl⟩ := mem_labels_of_next hB hgo
        have hne : ¬(B.label = e ∧ C.label = p) := fun h => hthrough ⟨h.1, by rw [hgo, h.2]⟩
        have hkeep : (if B.label = e then
            ((.inl C.label : ℕ ⊕ υ).map (fun c => if c = p then F.fresh else c) id)
            else .inl C.label) = .inl C.label := by
          split_ifs with he
          · rw [Sum.map_inl, if_neg fun hp => hne ⟨he, hp⟩]
          · rfl
        rw [hkeep]
        simp only
        rw [enter_splitEdge_of_ne hC hmem hne]
      · split_ifs <;> rfl

/-! ### Instructions and notes -/

variable (F) in
/-- The blocks one by one, with the labels, the PHIs and the targets they have. -/
def rewrite (g : Block ι τ μ ν → Block ι τ μ ν) (hlabel : ∀ B, (g B).label = B.label)
    (hphis : ∀ B, (g B).phis = B.phis) (htargets : ∀ B, (g B).term.targets = B.term.targets) :
    Code ι τ μ ν where
  blocks := F.blocks.map g
  nodup_labels := by
    rw [List.map_map, Function.comp_def]
    simpa only [hlabel] using F.nodup_labels
  closed := by
    simpa only [List.forall_mem_map, htargets, List.map_map, Function.comp_def, hlabel] using
      F.closed
  incoming_mem := by
    simpa only [List.forall_mem_map, Block.incoming, hphis, List.map_map, Function.comp_def,
      hlabel] using F.incoming_mem

/-- **Blocks that mean the same behave the same.** -/
theorem sameBehaviour_rewrite {g : Block ι τ μ ν → Block ι τ μ ν}
    {hlabel : ∀ B, (g B).label = B.label} {hphis : ∀ B, (g B).phis = B.phis}
    {htargets : ∀ B, (g B).term.targets = B.term.targets}
    (hinsts : ∀ B ∈ F.blocks, ∀ s, runInsts M (g B).insts s = runInsts M B.insts s)
    (hnext : ∀ B ∈ F.blocks, ∀ s, (g B).term.next M s = B.term.next M s)
    {c : Config σ υ} (hc : F.Inside c) :
    EffectProgram.SameBehaviour (F.program M)
      ((F.rewrite g hlabel hphis htargets).program M) c c := by
  have hmem : ∀ B ∈ F.blocks, g B ∈ (F.rewrite g hlabel hphis htargets).blocks :=
    fun B hB => List.mem_map_of_mem hB
  have henter : ∀ C ∈ F.blocks, ∀ q s,
      (F.rewrite g hlabel hphis htargets).enter M q C.label s = F.enter M q C.label s := by
    intro C hC q s
    have h := enter_of_mem (M := M) (hmem C hC) q s
    rwa [hlabel, Block.assignments, hphis, ← Block.assignments, ← enter_of_mem hC] at h
  refine sameBehaviour_of_blocks (fun B hB s => ⟨1, Nat.one_pos, ?_, ?_⟩) hc
  · have h := effects_at (M := M) (hmem B hB) s
    rw [hlabel] at h
    rw [EffectProgram.performed, EffectProgram.performed, program_effects, h, hinsts B hB,
      effects_at hB, List.append_nil]
  · have h := step_at (M := M) (hmem B hB) s
    rw [hlabel] at h
    rw [Function.iterate_one, program_step, h, hinsts B hB, hnext B hB, step_at hB]
    rcases hgo : B.term.next M (runInsts M B.insts s).1 with c | v
    · obtain ⟨C, hC, rfl⟩ := mem_labels_of_next hB hgo
      simp only
      rw [henter C hC]
    · rfl

end Code

end Preservation

/-! ### Outlines -/

/-- A block without what its PHIs assign. -/
structure Outline (ι τ μ : Type*) where
  label : ℕ
  hasPhis : Bool
  insts : List ι
  term : Terminator τ μ

section Outlines

variable {ι τ μ ν : Type*} {F : Code ι τ μ ν}

/-- The outline of a block. -/
def Block.outline (B : Block ι τ μ ν) : Outline ι τ μ :=
  ⟨B.label, !B.phis.isEmpty, B.insts, B.term⟩

/-- A block split at position `k`. -/
def Outline.split (k new : ℕ) (O : Outline ι τ μ) : List (Outline ι τ μ) :=
  [{ O with insts := O.insts.take k, term := .br new none },
    ⟨new, false, O.insts.drop k, O.term⟩]

@[simp] theorem Block.outline_replacePhiUses (old new : ℕ) (B : Block ι τ μ ν) :
    (B.replacePhiUses old new).outline = B.outline := by
  simp [outline, replacePhiUses]

namespace Code

variable (F) in
/-- The blocks without what their PHIs assign. -/
def outline : List (Outline ι τ μ) := F.blocks.map Block.outline

theorem labels_outline : F.outline.map Outline.label = F.labels := by
  rw [outline, List.map_map]
  rfl

theorem insts_outline : F.outline.flatMap Outline.insts = F.insts := by
  rw [outline, List.flatMap_map]
  rfl

theorem outline_splitBlock (b k : ℕ) : (F.splitBlock b k).outline =
    F.outline.flatMap fun O => if O.label = b then O.split k F.fresh else [O] := by
  rw [outline, splitBlock, List.map_flatMap, outline, List.flatMap_map]
  refine List.flatMap_congr fun B _ => ?_
  have hlabel : B.outline.label = B.label := rfl
  rw [splitPiece, hlabel]
  by_cases hb : B.label = b
  · rw [if_pos hb, if_pos hb]
    split_ifs <;> simp [Block.front, Block.back, Block.outline, Outline.split, Block.replacePhiUses]
  · rw [if_neg hb, if_neg hb]
    split_ifs <;> simp

theorem outline_splitEdge (e p : ℕ) : (F.splitEdge e p).outline = F.outline.flatMap fun O =>
    let O' := if O.label = e then { O with term := O.term.replaceSuccessor p F.fresh } else O
    if O.label = p then [⟨F.fresh, false, [], .br p none⟩, O'] else [O'] := by
  rw [outline, splitEdge, List.map_flatMap, outline, List.flatMap_map]
  refine List.flatMap_congr fun B _ => ?_
  have hlabel : B.outline.label = B.label := rfl
  rw [edgePiece, hlabel]
  by_cases hp : B.label = p
  · rw [if_pos hp]
    simp only [if_pos hp]
    split_ifs <;> simp [Block.outline, Block.replacePhiUses]
  · rw [if_neg hp]
    simp only [if_neg hp]
    split_ifs <;> rfl

end Code

end Outlines

end Bao.Machine.BlockCode
