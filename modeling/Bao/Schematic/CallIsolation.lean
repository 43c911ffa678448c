import Bao.Graph.CycleSearch
import Bao.Machine.BlockCode
import Bao.Schematic.Pass

/-!
# Isolation of calls

`CallIsolationPass` (`CallIsolation.cpp`) prepares a module for the SCHEMATIC pass. It rejects
recursion, and it puts every call of a defined function into a block of its own, with an empty
block behind it. Both blocks are marked with a group number, on the call and on the branch that
leaves the empty block, and `collectIsolatedCalls` finds the pairs again by these marks.

A call is isolated by two block splits and an edge split, so the code behaves as before
(`sameBehaviour_isolateInFunction`). The loop starts over after every split. It always finds the
first call that is not marked yet, so the marks count the calls in layout order (`number`), and it
stops when there is no call left.
-/

namespace Bao.Schematic.CallIsolation

open Bao.Machine Bao.Machine.BlockCode Bao.Graph Relation

/-! ### Modules -/

/-- What a call instruction shows of its callee; an indirect call has none. -/
structure CallSite where
  isInlineAsm : Bool := false
  calledFunction : Option String

/-- An instruction: what it is otherwise, the call if it is one, and the group of the
`schematic.call_entry` metadata. -/
structure Instruction (ι : Type*) where
  op : ι
  call : Option CallSite := none
  callEntry : Option ℕ := none

/-- The body of a function. The note of a branch is the group of its `schematic.call_exit`
metadata. -/
abbrev Body (ι τ ν : Type*) := Code (Instruction ι) τ ℕ ν

/-- A function; a declaration has no body. -/
structure Function (ι τ ν : Type*) where
  name : String
  body : Option (Body ι τ ν)

/-- A module. -/
structure Module (ι τ ν : Type*) where
  functions : List (Function ι τ ν)
  nodup_names : (functions.map Function.name).Nodup

/-- `starts_with`. -/
def startsWith (name start : String) : Bool := start.toList.isPrefixOf name.toList

/-- `isBenchmarkInfrastructureFunction`. -/
def isBenchmarkInfrastructureFunction (name : String) : Bool :=
  startsWith name "timing_gpio" || startsWith name "_timing_delay" || startsWith name "debug_" ||
    startsWith name "uart_"

/-- The helpers of the compiler's runtime library. -/
def isWhitelistedHelperName (name : String) : Bool :=
  startsWith name "__mspabi_" || startsWith name "__aeabi_" || startsWith name "__div" ||
    startsWith name "__udiv" || startsWith name "__mul" || startsWith name "__mod"

/-- `isIntrinsic`: the name is reserved. -/
def isIntrinsic (name : String) : Bool := startsWith name "llvm."

/-- **`isSchematicHelperCallee`**. -/
def isSchematicHelperCallee (name : String) : Bool :=
  isIntrinsic name || name == "__loop_tripcount" ||
    (name == "bench_halt" || name == "bench_commit_result") ||
    isBenchmarkInfrastructureFunction name || isWhitelistedHelperName name

section Pass

variable {ι τ ν : Type*}

namespace Module

variable (M : Module ι τ ν)

/-- The body of a function that is defined. -/
def bodyOf (name : String) : Option (Body ι τ ν) :=
  (M.functions.find? fun F => F.name = name).bind Function.body

/-- The function is in the module and not a declaration. -/
def isDefined (name : String) : Bool := (M.bodyOf name).isSome

/-- **`isIsolatableCall`**: a direct call to a defined function that is no helper. -/
def isIsolatableCall (site : CallSite) : Bool :=
  !site.isInlineAsm && match site.calledFunction with
    | none => false
    | some callee => M.isDefined callee && !isSchematicHelperCallee callee

/-- The functions a function calls directly, as far as they are defined. -/
def callees (f : String) : List String :=
  ((M.bodyOf f).elim [] fun body => body.insts.filterMap fun i =>
    i.call.bind CallSite.calledFunction).filter M.isDefined

end Module

/-! ### Recursion -/

/-- The call graph with the orders in which its hash tables are walked. -/
structure CallGraph (M : Module ι τ ν) where
  next : String → List String
  roots : List String
  mem_next : ∀ f c, c ∈ next f ↔ c ∈ M.callees f
  mem_roots : ∀ f, f ∈ roots ↔ M.callees f ≠ []

/-- The call graph in the order of the module. -/
def Module.callGraph (M : Module ι τ ν) : CallGraph M where
  next f := (M.callees f).dedup
  roots := (M.functions.map Function.name).filter fun f => !(M.callees f).isEmpty
  mem_next f c := List.mem_dedup
  mem_roots f := by
    simp only [List.mem_filter, Bool.not_eq_true', List.isEmpty_eq_false_iff, and_iff_right_iff_imp]
    intro h
    rw [Module.callees] at h
    rcases hb : M.functions.find? (fun F => F.name = f) with _ | F
    · simp [Module.bodyOf, hb] at h
    · exact List.mem_map.mpr ⟨F, List.mem_of_find?_eq_some hb, by simpa using List.find?_some hb⟩

/-- **`detectRecursion`**: the call at which the search stops. -/
def detectRecursion {M : Module ι τ ν} (G : CallGraph M) : Option (String × String) :=
  findCycle G.next M.functions.length G.roots

/-! ### Calls -/

/-- A call that is not isolated yet. -/
def isPending (isolatable : CallSite → Bool) (i : Instruction ι) : Bool :=
  i.callEntry.isNone && i.call.any isolatable

/-- The first pending call: its block and its position there. -/
def firstPending (isolatable : CallSite → Bool) (F : Body ι τ ν) : Option (ℕ × ℕ) :=
  F.blocks.findSome? fun B =>
    (B.insts.findIdx? (isPending isolatable)).map fun k => (B.label, k)

/-- The block with its first instruction marked as the call of group `gid`. -/
def markCall (gid : ℕ) (B : BlockCode.Block (Instruction ι) τ ℕ ν) :
    BlockCode.Block (Instruction ι) τ ℕ ν :=
  { B with insts := B.insts.modifyHead fun i => { i with callEntry := some gid } }

/-- The terminator, marked as the exit of group `gid`. -/
def markExit (gid : ℕ) (B : BlockCode.Block (Instruction ι) τ ℕ ν) :
    BlockCode.Block (Instruction ι) τ ℕ ν :=
  { B with term := match B.term with
    | .br target _ => .br target (some gid)
    | t => t }

/-- The metadata of group `gid` on the blocks of a call. -/
def setMetadata (F : Body ι τ ν) (entry exit gid : ℕ) : Body ι τ ν :=
  F.rewrite (fun B => if B.label = entry then markCall gid B
      else if B.label = exit then markExit gid B else B)
    (fun B => by split_ifs <;> rfl) (fun B => by split_ifs <;> rfl)
    (fun B => by
      split_ifs
      · rfl
      · rw [markExit]
        rcases B.term with _ | _ | _ <;> rfl
      · rfl)

/-- **`splitOneCall`**: `pre → call_entry(call) → call_exit() → post`, for the call at position `k`
of block `pre`. -/
def splitOneCall (F : Body ι τ ν) (pre k gid : ℕ) : Body ι τ ν :=
  let entry := F.fresh
  let F := F.splitBlock pre k
  let post := F.fresh
  let F := F.splitBlock entry 1
  let exit := F.fresh
  let F := F.splitEdge entry post
  setMetadata F entry exit gid

/-- The loop of `isolateInFunction`, for at most `n` calls. -/
def isolateCalls (isolatable : CallSite → Bool) : ℕ → Body ι τ ν → ℕ → Body ι τ ν × ℕ
  | 0, F, gid => (F, gid)
  | n + 1, F, gid =>
    match firstPending isolatable F with
    | none => (F, gid)
    | some (pre, k) => isolateCalls isolatable n (splitOneCall F pre k gid) (gid + 1)

/-- **`isolateInFunction`**: the new code and the next group number. -/
def isolateInFunction (isolatable : CallSite → Bool) (F : Body ι τ ν) (gid : ℕ) : Body ι τ ν × ℕ :=
  isolateCalls isolatable (F.insts.countP (isPending isolatable)) F gid

/-- The functions of a module, one after the other. -/
def isolateFunctions (isolatable : CallSite → Bool) : ℕ → List (Function ι τ ν) →
    List (Function ι τ ν)
  | _, [] => []
  | gid, F :: Fs =>
    match F.body with
    | none => F :: isolateFunctions isolatable gid Fs
    | some body =>
      if isBenchmarkInfrastructureFunction F.name then F :: isolateFunctions isolatable gid Fs
      else
        let r := isolateInFunction isolatable body gid
        { F with body := some r.1 } :: isolateFunctions isolatable r.2 Fs

theorem names_isolateFunctions (isolatable : CallSite → Bool) (gid : ℕ)
    (Fs : List (Function ι τ ν)) :
    (isolateFunctions isolatable gid Fs).map Function.name = Fs.map Function.name := by
  induction Fs generalizing gid with
  | nil => rfl
  | cons F Fs ih =>
    rw [isolateFunctions]
    split
    · rw [List.map_cons, ih, List.map_cons]
    · split_ifs
      · rw [List.map_cons, ih, List.map_cons]
      · rw [List.map_cons, ih, List.map_cons]

/-- The module with all calls isolated. -/
def Module.isolate (M : Module ι τ ν) : Module ι τ ν where
  functions := isolateFunctions M.isIsolatableCall 0 M.functions
  nodup_names := by
    rw [names_isolateFunctions]
    exact M.nodup_names

/-- The fatal error for a cycle through a call of `c` in `f`. -/
def recursionError (f c : String) : String :=
  "SCHEMATIC: recursion is unsupported (cycle: " ++ f ++ " -> " ++ c ++ ")"

/-- **`CallIsolationPass::run`**. -/
def run (M : Module ι τ ν) (G : CallGraph M) : Except String (Module ι τ ν) :=
  match detectRecursion G with
  | some (f, c) => .error (recursionError f c)
  | none => .ok M.isolate

/-- The group of the `schematic.call_exit` metadata. -/
def exitNote : Terminator τ ℕ → Option ℕ
  | .br _ note => note
  | _ => none

end Pass

section Isolation

variable {ι τ ν : Type*} {F : Body ι τ ν}

/-- The instruction as the call of group `gid`. -/
def Instruction.mark (gid : ℕ) (i : Instruction ι) : Instruction ι :=
  { i with callEntry := some gid }

/-- The four blocks of a block with a call at position `k`. -/
def callPieces (entry exit post k gid : ℕ) (i : Instruction ι)
    (O : Outline (Instruction ι) τ ℕ) : List (Outline (Instruction ι) τ ℕ) :=
  [{ O with insts := O.insts.take k, term := .br entry none },
    ⟨entry, false, [i.mark gid], .br exit none⟩,
    ⟨exit, false, [], .br post (some gid)⟩,
    ⟨post, false, O.insts.drop (k + 1), O.term⟩]

private theorem outline_setMetadata {entry exit gid : ℕ} : (setMetadata F entry exit gid).outline =
    F.outline.map fun O =>
      if O.label = entry then { O with insts := O.insts.modifyHead (Instruction.mark gid) }
      else if O.label = exit then { O with term := match O.term with
        | .br target _ => .br target (some gid)
        | t => t }
      else O := by
  rw [Code.outline, setMetadata, Code.rewrite, List.map_map, Code.outline, List.map_map]
  refine List.map_congr_left fun B _ => ?_
  have hlabel : B.outline.label = B.label := rfl
  simp only [Function.comp_apply, hlabel]
  split_ifs <;> rfl

/-- A label that the code had before is not the fresh one. -/
private theorem ne_fresh {l : ℕ} (h : l ∈ F.labels) : l ≠ F.fresh :=
  fun he => F.fresh_notMem (he ▸ h)

/-- **The blocks after `splitOneCall`**, up to the predecessors that PHIs name. -/
theorem outline_splitOneCall {B : BlockCode.Block (Instruction ι) τ ℕ ν} (hB : B ∈ F.blocks)
    {k : ℕ} {i : Instruction ι} (hk : B.insts[k]? = some i) (gid : ℕ) :
    ∃ entry exit post, [entry, exit, post].Nodup ∧ entry ∉ F.labels ∧ exit ∉ F.labels ∧
      post ∉ F.labels ∧ (splitOneCall F B.label k gid).outline = F.outline.flatMap fun O =>
        if O.label = B.label then callPieces entry exit post k gid i O else [O] := by
  set F₁ := F.splitBlock B.label k with hF₁
  set F₂ := F₁.splitBlock F.fresh 1 with hF₂
  have hpre : B.label ∈ F.labels := Code.mem_labels.mpr ⟨B, hB, rfl⟩
  have hold₁ : ∀ l ∈ F.labels, l ∈ F₁.labels := fun l hl => Code.mem_labels_splitBlock.mpr (.inl hl)
  have hold₂ : ∀ l ∈ F₁.labels, l ∈ F₂.labels :=
    fun l hl => Code.mem_labels_splitBlock.mpr (.inl hl)
  have hentry : F.fresh ∈ F₁.labels := Code.mem_labels_splitBlock.mpr (.inr ⟨rfl, hpre⟩)
  have hpost : F₁.fresh ∈ F₂.labels := Code.mem_labels_splitBlock.mpr (.inr ⟨rfl, hentry⟩)
  have hep := ne_fresh hentry
  have hex := ne_fresh (hold₂ _ hentry)
  have hpx := ne_fresh hpost
  refine ⟨F.fresh, F₂.fresh, F₁.fresh, by simp [hep, hex, hpx.symm], F.fresh_notMem,
    fun h => F₂.fresh_notMem (hold₂ _ (hold₁ _ h)), fun h => F₁.fresh_notMem (hold₁ _ h), ?_⟩
  rw [splitOneCall, outline_setMetadata, Code.outline_splitEdge, Code.outline_splitBlock,
    Code.outline_splitBlock, List.flatMap_assoc, List.flatMap_assoc, List.map_flatMap]
  simp only [← hF₁, ← hF₂]
  refine List.flatMap_congr fun O hO => ?_
  obtain ⟨C, hC, rfl⟩ := List.mem_map.mp hO
  have hC' : C.label ∈ F.labels := Code.mem_labels.mpr ⟨C, hC, rfl⟩
  have hCe := ne_fresh hC'
  have hCp := ne_fresh (hold₁ _ hC')
  have hCx := ne_fresh (hold₂ _ (hold₁ _ hC'))
  have hlabel : C.outline.label = C.label := rfl
  by_cases hCB : C.label = B.label
  · obtain rfl : C = B := Code.eq_of_label hC hB hCB
    have hdrop : C.insts.drop k = i :: C.insts.drop (k + 1) :=
      List.drop_eq_getElem?_toList_append.trans (by rw [hk]; rfl)
    simp only [hlabel, if_true, Outline.split, callPieces]
    have hmarked : (C.outline.insts.drop k).take 1 = [i] := by
      change (C.insts.drop k).take 1 = [i]
      rw [hdrop]
      rfl
    simp [hCe, hCp, hCx, hep, hpx, hep.symm, hex.symm, Terminator.replaceSuccessor, hmarked]
  · simp only [hlabel, if_neg hCB]
    simp [hlabel, hCe, hCp, hCx]

/-! ### Behaviour -/

section Behaviour

variable {σ ε υ : Type*} (M : Meaning ι τ ν σ ε υ)

/-- Metadata does not change what an instruction does. -/
def meaning : Meaning (Instruction ι) τ ν σ ε υ where
  exec i := M.exec i.op
  choose := M.choose
  leave := M.leave
  assign := M.assign
  assign_nil := M.assign_nil

private theorem runInsts_modifyHead_mark (gid : ℕ) (is : List (Instruction ι)) (s : σ) :
    runInsts (meaning M) (is.modifyHead (Instruction.mark gid)) s = runInsts (meaning M) is s := by
  rcases is with _ | ⟨i, is⟩ <;> rfl

variable {M}

private theorem labels_setMetadata (entry exit gid : ℕ) :
    (setMetadata F entry exit gid).labels = F.labels := by
  rw [← Code.labels_outline, outline_setMetadata, List.map_map, ← Code.labels_outline]
  refine List.map_congr_left fun O _ => ?_
  simp only [Function.comp_apply]
  split_ifs <;> rfl

private theorem mem_labels_splitOneCall {l : ℕ} (pre k gid : ℕ) (hl : l ∈ F.labels) :
    l ∈ (splitOneCall F pre k gid).labels := by
  rw [splitOneCall, labels_setMetadata]
  exact Code.mem_labels_splitEdge.mpr (.inl (Code.mem_labels_splitBlock.mpr
    (.inl (Code.mem_labels_splitBlock.mpr (.inl hl)))))

private theorem inside_splitOneCall {pre k gid : ℕ} {c : Config σ υ} (hc : F.Inside c) :
    (splitOneCall F pre k gid).Inside c := by
  rcases c with ⟨l, s⟩ | v
  · exact mem_labels_splitOneCall pre k gid hc
  · trivial

private theorem sameBehaviour_setMetadata (entry exit gid : ℕ) {c : Config σ υ}
    (hc : F.Inside c) :
    EffectProgram.SameBehaviour (F.program (meaning M))
      ((setMetadata F entry exit gid).program (meaning M)) c c := by
  rw [setMetadata]
  refine Code.sameBehaviour_rewrite (fun B _ s => ?_) (fun B _ s => ?_) hc
  · split_ifs
    · exact runInsts_modifyHead_mark M gid B.insts s
    · rfl
    · rfl
  · split_ifs
    · rfl
    · rw [markExit]
      rcases B.term with _ | _ | _ <;> rfl
    · rfl

/-- Isolating one call keeps the behaviour of the code. -/
theorem sameBehaviour_splitOneCall (pre k gid : ℕ) {c : Config σ υ} (hc : F.Inside c) :
    EffectProgram.SameBehaviour (F.program (meaning M))
      ((splitOneCall F pre k gid).program (meaning M)) c c := by
  have hpre := Code.inside_splitBlock (b := pre) (k := k) hc
  have hentry := Code.inside_splitBlock (b := F.fresh) (k := 1) hpre
  exact (Code.sameBehaviour_splitBlock pre k hc).trans
    ((Code.sameBehaviour_splitBlock F.fresh 1 hpre).trans
      ((Code.sameBehaviour_splitEdge _ _ hentry).trans
        (sameBehaviour_setMetadata _ _ gid (Code.inside_splitEdge hentry))))

theorem sameBehaviour_isolateCalls {isolatable : CallSite → Bool} (n gid : ℕ) {c : Config σ υ}
    (hc : F.Inside c) :
    EffectProgram.SameBehaviour (F.program (meaning M))
      ((isolateCalls isolatable n F gid).1.program (meaning M)) c c := by
  induction n generalizing F gid with
  | zero => exact .refl _ c
  | succ n ih =>
    rw [isolateCalls]
    split
    · exact .refl _ c
    · next pre k _ =>
        exact (sameBehaviour_splitOneCall pre k gid hc).trans (ih _ (inside_splitOneCall hc))

end Behaviour

/-! ### The layout after the loop -/

/-- An isolated call: its group, the labels of its two blocks and of the block behind, and the call
as it was. -/
structure CallAt (ι : Type*) where
  gid : ℕ
  entry : ℕ
  exit : ℕ
  post : ℕ
  call : Instruction ι

/-- The two blocks of an isolated call: the call and nothing else, and an empty block. -/
def CallAt.pieces (c : CallAt ι) : List (Outline (Instruction ι) τ ℕ) :=
  [⟨c.entry, false, [c.call.mark c.gid], .br c.exit none⟩,
    ⟨c.exit, false, [], .br c.post (some c.gid)⟩]

/-- A block without any mark. -/
def IsPlain (O : Outline (Instruction ι) τ ℕ) : Prop :=
  (∀ i ∈ O.insts, i.callEntry = none) ∧ exitNote O.term = none

/-- **The layout of code with isolated calls**: the two blocks of each call, in this order, and
plain blocks. -/
inductive Layout : List (Outline (Instruction ι) τ ℕ) → List (CallAt ι) → Prop
  | nil : Layout [] []
  | plain {Os calls O} : Layout Os calls → IsPlain O → Layout (Os ++ [O]) calls
  | call {Os calls} (c : CallAt ι) : Layout Os calls → Layout (Os ++ c.pieces) (calls ++ [c])

theorem Layout.append_plain {Os Ps : List (Outline (Instruction ι) τ ℕ)} {calls : List (CallAt ι)}
    (h : Layout Os calls) (hPs : ∀ O ∈ Ps, IsPlain O) : Layout (Os ++ Ps) calls := by
  induction Ps generalizing Os with
  | nil => rwa [List.append_nil]
  | cons P Ps ih =>
    have hP := h.plain (hPs P (List.mem_cons_self ..))
    have hrest := ih hP fun O hO => hPs O (List.mem_cons_of_mem _ hO)
    rwa [List.append_assoc, List.singleton_append] at hrest

/-- The instruction without metadata. -/
def Instruction.unmark (i : Instruction ι) : Instruction ι := { i with callEntry := none }

/-- The state of the loop: `done` has been through, `todo` has not, and the first pending call is
in `todo`. -/
structure Progress (isolatable : CallSite → Bool) (F₀ : Body ι τ ν) (gid₀ : ℕ) (F : Body ι τ ν)
    (gid : ℕ) (done todo : List (Outline (Instruction ι) τ ℕ)) (calls : List (CallAt ι)) :
    Prop where
  outline : F.outline = done ++ todo
  layout : Layout done calls
  done : ∀ O ∈ done, ∀ i ∈ O.insts, isPending isolatable i = false
  plain : ∀ O ∈ todo, IsPlain O
  pending : calls.map CallAt.call ++ (todo.flatMap Outline.insts).filter (isPending isolatable) =
    F₀.insts.filter (isPending isolatable)
  gids : calls.map CallAt.gid = List.range' gid₀ calls.length
  next : gid = gid₀ + calls.length
  labels : ∀ l ∈ F₀.labels, l ∈ F.labels
  fresh : ∀ c ∈ calls, c.entry ∉ F₀.labels ∧ c.exit ∉ F₀.labels ∧ c.post ∉ F₀.labels
  unmark : F.insts.map Instruction.unmark = F₀.insts.map Instruction.unmark

section Loop

variable {isolatable : CallSite → Bool} {F₀ : Body ι τ ν} {gid₀ gid : ℕ}
  {done todo : List (Outline (Instruction ι) τ ℕ)} {calls : List (CallAt ι)}

private theorem firstPending_eq_none (h : firstPending isolatable F = none) :
    ∀ i ∈ F.insts, isPending isolatable i = false := by
  intro i hi
  obtain ⟨B, hB, hi⟩ := List.mem_flatMap.mp hi
  have hnone := List.findSome?_eq_none_iff.mp h B hB
  rw [Option.map_eq_none_iff, List.findIdx?_eq_none_iff] at hnone
  exact hnone i hi

/-- Where the first pending call is. -/
private theorem firstPending_eq_some {b k : ℕ} (h : firstPending isolatable F = some (b, k)) :
    ∃ before B after i, F.blocks = before ++ B :: after ∧ B.label = b ∧ B.insts[k]? = some i ∧
      isPending isolatable i ∧ (∀ j ∈ B.insts.take k, isPending isolatable j = false) ∧
      ∀ C ∈ before, ∀ j ∈ C.insts, isPending isolatable j = false := by
  obtain ⟨before, B, after, hblocks, hB, hbefore⟩ := List.findSome?_eq_some_iff.mp h
  obtain ⟨k', hk, hbk⟩ := Option.map_eq_some_iff.mp hB
  obtain ⟨rfl, rfl⟩ := Prod.mk.inj hbk
  obtain ⟨hlt, hi, htake⟩ := List.findIdx?_eq_some_iff_getElem.mp hk
  refine ⟨before, B, after, B.insts[k'], hblocks, rfl, List.getElem?_eq_getElem hlt, hi, ?_, ?_⟩
  · intro j hj
    obtain ⟨n, hn, rfl⟩ := List.mem_iff_getElem.mp hj
    rw [List.length_take] at hn
    rw [List.getElem_take]
    simpa using htake n (by omega)
  · intro C hC j hj
    have hnone := hbefore C hC
    rw [Option.map_eq_none_iff, List.findIdx?_eq_none_iff] at hnone
    exact hnone j hj

private theorem insts_splitOneCall (pre k gid : ℕ) :
    (splitOneCall F pre k gid).insts.map Instruction.unmark =
      F.insts.map Instruction.unmark := by
  have h : ∀ (G : Body ι τ ν) (e x : ℕ), (setMetadata G e x gid).insts.map Instruction.unmark =
      G.insts.map Instruction.unmark := by
    intro G e x
    rw [← Code.insts_outline, outline_setMetadata, ← Code.insts_outline, List.map_flatMap,
      List.flatMap_map, List.map_flatMap]
    refine List.flatMap_congr fun O _ => ?_
    split_ifs
    · rcases O.insts with _ | ⟨i, is⟩ <;> rfl
    · rfl
    · rfl
  rw [splitOneCall, h, Code.insts_splitEdge, Code.insts_splitBlock, Code.insts_splitBlock]

private theorem flatMap_pieces_of_ne {l : ℕ} {Os : List (Outline (Instruction ι) τ ℕ)}
    {f : Outline (Instruction ι) τ ℕ → List (Outline (Instruction ι) τ ℕ)}
    (h : ∀ O ∈ Os, O.label ≠ l) :
    (Os.flatMap fun O => if O.label = l then f O else [O]) = Os := by
  refine Eq.trans (List.flatMap_congr fun O hO => if_neg (h O hO)) ?_
  exact List.flatMap_singleton' Os

/-- One pass of the loop isolates the first call of `todo`. -/
theorem Progress.step (h : Progress isolatable F₀ gid₀ F gid done todo calls) {b k : ℕ}
    (hfirst : firstPending isolatable F = some (b, k)) :
    ∃ done' todo' c, Progress isolatable F₀ gid₀ (splitOneCall F b k gid) (gid + 1) done' todo'
      (calls ++ [c]) := by
  obtain ⟨before, B, after, i, hblocks, rfl, hk, hi, htake, hbefore⟩ := firstPending_eq_some hfirst
  have hB : B ∈ F.blocks := by rw [hblocks]; exact List.mem_append_right _ (List.mem_cons_self ..)
  obtain ⟨entry, exit, post, -, hentry, hexit, hpost, houtline⟩ := outline_splitOneCall hB hk gid
  have hsplit : F.outline =
      before.map Block.outline ++ B.outline :: after.map Block.outline := by
    rw [Code.outline, hblocks, List.map_append, List.map_cons]
  -- the block is in `todo`, because nothing is pending in `done`
  obtain ⟨a, hdone, htodo⟩ : ∃ a, before.map Block.outline = done ++ a ∧
      todo = a ++ B.outline :: after.map Block.outline := by
    rcases List.append_eq_append_iff.mp (h.outline.symm.trans hsplit) with
      ⟨a, hdone, htodo⟩ | ⟨a, hdone, htodo⟩
    · exact ⟨a, hdone, htodo⟩
    · rcases a with _ | ⟨O, a⟩
      · exact ⟨[], by simpa using hdone.symm, by simpa using htodo.symm⟩
      · obtain ⟨rfl, -⟩ := List.cons.inj htodo
        have hpend := h.done B.outline (by rw [hdone]; simp) i (List.mem_of_getElem? hk)
        rw [hi] at hpend
        cases hpend
  have hlabels : (F.outline.map Outline.label).Nodup := by
    rw [Code.labels_outline]
    exact F.nodup_labels
  rw [hsplit, List.map_append, List.map_cons] at hlabels
  have hne : ∀ O ∈ before.map Block.outline ++ after.map Block.outline, O.label ≠ B.label := by
    intro O hO he
    have hnot := (List.nodup_middle.mp hlabels).notMem
    rw [← List.map_append] at hnot
    exact hnot (List.mem_map.mpr ⟨O, hO, he⟩)
  have hnew : (splitOneCall F B.label k gid).outline =
      done ++ a ++ callPieces entry exit post k gid i B.outline ++ after.map Block.outline := by
    rw [houtline, hsplit, List.flatMap_append, List.flatMap_cons,
      if_pos (show B.outline.label = B.label from rfl),
      flatMap_pieces_of_ne fun O hO => hne O (List.mem_append_left _ hO),
      flatMap_pieces_of_ne fun O hO => hne O (List.mem_append_right _ hO), hdone,
      List.append_assoc (done ++ a)]
  have hplainB : IsPlain B.outline := h.plain _ (by rw [htodo]; simp)
  set front : Outline (Instruction ι) τ ℕ :=
    { B.outline with insts := B.insts.take k, term := .br entry none } with hfront
  set rest : Outline (Instruction ι) τ ℕ := ⟨post, false, B.insts.drop (k + 1), B.term⟩ with hrest
  have hinsts : B.insts = B.insts.take k ++ i :: B.insts.drop (k + 1) := by
    conv_lhs => rw [← List.take_append_drop k B.insts, List.drop_eq_getElem?_toList_append, hk]
    rfl
  have hfrontPlain : IsPlain front :=
    ⟨fun j hj => hplainB.1 j (List.mem_of_mem_take hj), rfl⟩
  have hrestPlain : IsPlain rest :=
    ⟨fun j hj => hplainB.1 j (List.mem_of_mem_drop hj), hplainB.2⟩
  have haPlain : ∀ O ∈ a, IsPlain O := fun O hO => h.plain O (by rw [htodo]; simp [hO])
  have ha : ∀ O ∈ a, ∀ j ∈ O.insts, isPending isolatable j = false := by
    intro O hO j hj
    obtain ⟨C, hC, rfl⟩ := List.mem_map.mp
      (show O ∈ before.map Block.outline by rw [hdone]; exact List.mem_append_right _ hO)
    exact hbefore C hC j hj
  set c : CallAt ι := ⟨gid, entry, exit, post, i⟩ with hc
  refine ⟨done ++ a ++ [front] ++ c.pieces, rest :: after.map Block.outline, c, ?_, ?_, ?_, ?_, ?_,
    ?_, ?_, ?_, ?_, ?_⟩
  · rw [hnew]
    simp [callPieces, CallAt.pieces, hfront, hrest, hc, Block.outline]
  · exact ((h.layout.append_plain haPlain).plain hfrontPlain).call c
  · intro O hO j hj
    simp only [List.append_assoc, List.mem_append, List.mem_singleton] at hO
    rcases hO with hO | hO | rfl | hO
    · exact h.done O hO j hj
    · exact ha O hO j hj
    · exact htake j hj
    · rcases List.mem_pair.mp hO with rfl | rfl
      · obtain rfl := List.mem_singleton.mp hj
        rfl
      · cases hj
  · intro O hO
    rcases List.mem_cons.mp hO with rfl | hO
    · exact hrestPlain
    · exact h.plain O (by rw [htodo]; simp only [List.mem_append, List.mem_cons]; tauto)
  · have hnone : (a.flatMap Outline.insts).filter (isPending isolatable) = [] := by
      refine List.filter_eq_nil_iff.mpr fun j hj => ?_
      obtain ⟨O, hO, hj⟩ := List.mem_flatMap.mp hj
      simp [ha O hO j hj]
    have htake' : (B.insts.take k).filter (isPending isolatable) = [] :=
      List.filter_eq_nil_iff.mpr fun j hj => by simp [htake j hj]
    have hBinsts : B.outline.insts = B.insts := rfl
    have hpending := h.pending
    rw [htodo, List.flatMap_append, List.filter_append, hnone, List.flatMap_cons, hBinsts, hinsts,
      List.filter_append, List.filter_append, htake', List.filter_cons_of_pos hi] at hpending
    rw [← hpending, List.map_append, List.flatMap_cons, List.filter_append]
    simp [hrest, hc]
  · rw [List.map_append, h.gids, List.length_append, List.length_singleton, List.range'_concat,
      Nat.one_mul, ← h.next]
    rfl
  · rw [h.next, List.length_append, List.length_singleton]
    omega
  · exact fun l hl => mem_labels_splitOneCall _ _ _ (h.labels l hl)
  · intro d hd
    rcases List.mem_append.mp hd with hd | hd
    · exact h.fresh d hd
    · obtain rfl := List.mem_singleton.mp hd
      exact ⟨fun hl => hentry (h.labels _ hl), fun hl => hexit (h.labels _ hl),
        fun hl => hpost (h.labels _ hl)⟩
  · rw [insts_splitOneCall, h.unmark]

/-- The calls that are left. -/
private theorem Progress.count (h : Progress isolatable F₀ gid₀ F gid done todo calls) :
    calls.length + F.insts.countP (isPending isolatable) =
      (F₀.insts.filter (isPending isolatable)).length := by
  have hdone : (done.flatMap Outline.insts).countP (isPending isolatable) = 0 := by
    refine List.countP_eq_zero.mpr fun i hi => ?_
    obtain ⟨O, hO, hi⟩ := List.mem_flatMap.mp hi
    simp [h.done O hO i hi]
  rw [← h.pending, List.length_append, List.length_map, ← List.countP_eq_length_filter,
    ← Code.insts_outline, h.outline, List.flatMap_append, List.countP_append, hdone, Nat.zero_add]

/-- The loop has been through all blocks when nothing is pending. -/
private theorem Progress.finish (h : Progress isolatable F₀ gid₀ F gid done todo calls)
    (hnone : ∀ i ∈ F.insts, isPending isolatable i = false) :
    Progress isolatable F₀ gid₀ F gid F.outline [] calls := by
  have hmem : ∀ O ∈ F.outline, ∀ i ∈ O.insts, isPending isolatable i = false := by
    intro O hO i hi
    refine hnone i ?_
    rw [← Code.insts_outline]
    exact List.mem_flatMap.mpr ⟨O, hO, hi⟩
  have htodo : (todo.flatMap Outline.insts).filter (isPending isolatable) = [] := by
    refine List.filter_eq_nil_iff.mpr fun i hi => ?_
    obtain ⟨O, hO, hi⟩ := List.mem_flatMap.mp hi
    simp [hmem O (by rw [h.outline]; exact List.mem_append_right _ hO) i hi]
  have hpending := h.pending
  rw [htodo] at hpending
  refine { h with
    outline := (List.append_nil _).symm
    layout := ?_
    done := hmem
    plain := fun O hO => by cases hO
    pending := hpending }
  rw [h.outline]
  exact h.layout.append_plain h.plain

/-- **The whole loop.** -/
private theorem Progress.run (n : ℕ) (h : Progress isolatable F₀ gid₀ F gid done todo calls)
    (hn : F.insts.countP (isPending isolatable) ≤ n) :
    ∃ calls', Progress isolatable F₀ gid₀ (isolateCalls isolatable n F gid).1
      (isolateCalls isolatable n F gid).2 (isolateCalls isolatable n F gid).1.outline []
      calls' := by
  induction n generalizing F gid done todo calls with
  | zero =>
    refine ⟨calls, h.finish fun i hi => ?_⟩
    simpa using List.countP_eq_zero.mp (Nat.le_zero.mp hn) i hi
  | succ n ih =>
    rw [isolateCalls]
    split
    · next hnone => exact ⟨calls, h.finish (firstPending_eq_none hnone)⟩
    · next b k hsome =>
        obtain ⟨done', todo', c, h'⟩ := h.step hsome
        have hcount := h.count
        have hcount' := h'.count
        rw [List.length_append, List.length_singleton] at hcount'
        exact ih h' (by omega)

end Loop

/-- **What the pass does to a function**: `calls` are the calls it isolated, in layout order. -/
structure Isolates (isolatable : CallSite → Bool) (F : Body ι τ ν) (gid : ℕ) (F' : Body ι τ ν)
    (gid' : ℕ) (calls : List (CallAt ι)) : Prop where
  /-- Each call is alone in its block, before an empty block. -/
  layout : Layout F'.outline calls
  /-- Every isolatable call is isolated once, and no other one. -/
  calls_eq : calls.map CallAt.call = F.insts.filter (isPending isolatable)
  none_left : ∀ i ∈ F'.insts, isPending isolatable i = false
  /-- The groups are numbered in layout order. -/
  gids : calls.map CallAt.gid = List.range' gid calls.length
  next : gid' = gid + calls.length
  /-- The blocks of a call are new, and the old ones are still there. -/
  fresh : ∀ c ∈ calls, c.entry ∉ F.labels ∧ c.exit ∉ F.labels ∧ c.post ∉ F.labels
  labels : ∀ l ∈ F.labels, l ∈ F'.labels
  /-- No instruction is lost, added or moved in the layout. -/
  unmark : F'.insts.map Instruction.unmark = F.insts.map Instruction.unmark

/-- `isolateInFunction` on code without marks. -/
theorem isolates_isolateInFunction (isolatable : CallSite → Bool)
    (hF : ∀ O ∈ F.outline, IsPlain O) (gid : ℕ) :
    ∃ calls, Isolates isolatable F gid (isolateInFunction isolatable F gid).1
      (isolateInFunction isolatable F gid).2 calls := by
  have hstart : Progress isolatable F gid F gid [] F.outline [] :=
    { outline := rfl
      layout := .nil
      done := fun O hO => by cases hO
      plain := hF
      pending := by rw [Code.insts_outline]; rfl
      gids := rfl
      next := rfl
      labels := fun _ => id
      fresh := fun c hc => by cases hc
      unmark := rfl }
  obtain ⟨calls, h⟩ := hstart.run _ le_rfl
  refine ⟨calls, h.layout, ?_, fun i hi => ?_, h.gids, h.next, h.fresh, h.labels, h.unmark⟩
  · have hpending := h.pending
    rwa [List.flatMap_nil, List.filter_nil, List.append_nil] at hpending
  · rw [← Code.insts_outline] at hi
    obtain ⟨O, hO, hi⟩ := List.mem_flatMap.mp hi
    exact h.done O hO i hi

end Isolation

/-! ### Recursion is rejected -/

section Recursion

variable {ι τ ν : Type*} {M : Module ι τ ν}

private theorem mem_names_of_isDefined {f : String} (h : M.isDefined f = true) :
    f ∈ M.functions.map Function.name := by
  rw [Module.isDefined, Module.bodyOf] at h
  rcases hf : M.functions.find? (fun F => F.name = f) with _ | F
  · simp [hf] at h
  · exact List.mem_map.mpr ⟨F, List.mem_of_find?_eq_some hf, by simpa using List.find?_some hf⟩

private theorem mem_names_of_callees {f : String} (h : M.callees f ≠ []) :
    f ∈ M.functions.map Function.name := by
  refine mem_names_of_isDefined ?_
  rw [Module.callees] at h
  rcases hb : M.bodyOf f with _ | body
  · simp [hb] at h
  · rw [Module.isDefined, hb, Option.isSome_some]

private theorem isDefined_of_mem_callees {f c : String} (h : c ∈ M.callees f) :
    M.isDefined c = true := (List.mem_filter.mp h).2

variable (G : CallGraph M)

private theorem next_mem_names (a : String) : ∀ c ∈ G.next a,
    c ∈ (M.functions.map Function.name).toFinset :=
  fun c hc => List.mem_toFinset.mpr
    (mem_names_of_isDefined (isDefined_of_mem_callees ((G.mem_next a c).mp hc)))

private theorem roots_mem_names : ∀ r ∈ G.roots, r ∈ (M.functions.map Function.name).toFinset :=
  fun r hr => List.mem_toFinset.mpr (mem_names_of_callees ((G.mem_roots r).mp hr))

private theorem card_names_le :
    (M.functions.map Function.name).toFinset.card ≤ M.functions.length :=
  (List.toFinset_card_le _).trans (by rw [List.length_map])

private theorem mem_next_iff : (fun a c => c ∈ G.next a) = fun a c => c ∈ M.callees a :=
  funext fun a => funext fun c => propext (G.mem_next a c)

/-- The search finds a cycle if there is one, in whatever order it walks the hash tables. -/
theorem detectRecursion_eq_none_iff :
    detectRecursion G = none ↔ ∀ f, ¬TransGen (fun f c => c ∈ M.callees f) f f := by
  rw [detectRecursion, findCycle_eq_none_iff (fun a _ => next_mem_names G a) (roots_mem_names G)
    card_names_le, mem_next_iff]
  intro a c hc
  exact (G.mem_roots a).mpr (List.ne_nil_of_mem ((G.mem_next a c).mp hc))

/-- **Recursion is rejected**, and nothing else: `run` accepts a module if and only if no function
reaches itself by direct calls. Callees then come before callers in some order. The error names a
call on a cycle. -/
theorem run_rejects_recursion :
    (run M G = .ok M.isolate ↔ ∀ f, ¬TransGen (fun f c => c ∈ M.callees f) f f) ∧
      (run M G = .ok M.isolate → WellFounded fun c f => c ∈ M.callees f) ∧
      ∀ msg, run M G = .error msg → ∃ f c, msg = recursionError f c ∧ c ∈ M.callees f ∧
        ReflTransGen (fun f c => c ∈ M.callees f) c f := by
  have hok : run M G = .ok M.isolate ↔ detectRecursion G = none := by
    rw [run]
    split
    · next f c h => simp [h]
    · next h => simp [h]
  refine ⟨hok.trans (detectRecursion_eq_none_iff G), fun h => ⟨fun f => ?_⟩, fun msg h => ?_⟩
  · by_cases hf : M.callees f = []
    · exact Acc.intro f fun c hc => by simp [hf] at hc
    · have hacc := findCycle_complete (fun a _ => next_mem_names G a) (roots_mem_names G)
        card_names_le (hok.mp h) f ((G.mem_roots f).mpr hf)
      exact Subrelation.accessible (fun {c b} hc => (G.mem_next b c).mpr hc) hacc
  · rcases hd : detectRecursion G with _ | ⟨f, c⟩
    · rw [hok.mpr hd] at h
      cases h
    · obtain ⟨hc, hcycle⟩ := findCycle_sound hd
      rw [mem_next_iff] at hcycle
      rw [run, hd] at h
      exact ⟨f, c, (Except.error.inj h).symm, (G.mem_next f c).mp hc, hcycle⟩

end Recursion

end Bao.Schematic.CallIsolation
