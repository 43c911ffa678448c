import Bao.Schematic.CallIsolation

/-!
# The isolated calls of a module

The SCHEMATIC pass runs on the module that `CallIsolationPass` left, in a process of its own. It
finds the isolated calls again by their metadata (`collectIsolatedCalls`), and it reports every
call whose effects it does not know (`SchematicStateAnalysis::validateCalls`). Both have to agree
with what the first pass did: a call that is reported, or whose blocks are not found, makes the
caller unsolvable.

The marks are walked block by block, and a call's two blocks are next to each other in the layout,
so after each pair the groups are those of the calls seen so far (`groupsOf`). They are collected in
a hash table, so the calls come in any order (`WalkOrder`).
-/

namespace Bao.Schematic.CallIsolation

open Bao.Machine Bao.Machine.BlockCode

section Pass

variable {ι τ ν : Type*}

/-! ### Collecting -/

/-- What is known of one group. -/
structure Group where
  entry : Option ℕ := none
  exit : Option ℕ := none
  callee : Option String := none

/-- The groups by number, with the numbers that are in the hash table. -/
@[ext] structure Groups where
  gids : List ℕ := []
  group : ℕ → Group := fun _ => {}

/-- Access by `operator[]`. -/
def Groups.modify (m : Groups) (gid : ℕ) (f : Group → Group) : Groups where
  gids := if gid ∈ m.gids then m.gids else m.gids ++ [gid]
  group := Function.update m.group gid (f (m.group gid))

/-- One instruction of the walk. -/
def Groups.visitInst (l : ℕ) (m : Groups) (i : Instruction ι) : Groups :=
  match i.callEntry with
  | some gid => m.modify gid fun g =>
      { g with entry := some l, callee := i.call.bind CallSite.calledFunction }
  | none => m

/-- The terminator of a block. -/
def Groups.visitTerm (l : ℕ) (m : Groups) (t : Terminator τ ℕ) : Groups :=
  match exitNote t with
  | some gid => m.modify gid fun g => { g with exit := some l }
  | none => m

/-- One block of the walk. -/
def Groups.visit (m : Groups) (B : BlockCode.Block (Instruction ι) τ ℕ ν) : Groups :=
  (B.insts.foldl (Groups.visitInst B.label) m).visitTerm B.label B.term

/-- `getSingleSuccessor`. -/
def singleSuccessor (F : Body ι τ ν) (l : ℕ) : Option ℕ :=
  match (F.targetsOf l).dedup with
  | [c] => some c
  | _ => none

/-- An isolated call: its entry block, its exit block and its callee. -/
structure CallBlocks where
  entry : ℕ
  exit : ℕ
  callee : String
deriving DecidableEq, Repr

/-- A group as a call, if nothing of it is missing. -/
def Group.complete (F : Body ι τ ν) (g : Group) : Option CallBlocks := do
  let entry ← g.entry
  let exit ← g.exit <|> singleSuccessor F entry
  let callee ← g.callee
  return ⟨entry, exit, callee⟩

/-- The order in which a hash table is walked, from the order in which its keys were inserted. -/
structure WalkOrder where
  walk : List ℕ → List ℕ
  perm : ∀ gids, (walk gids).Perm gids

/-- **`collectIsolatedCalls`**: the complete groups, in the order in which the table is walked. -/
def collectIsolatedCalls (order : WalkOrder) (F : Body ι τ ν) : List CallBlocks :=
  let m := F.blocks.foldl Groups.visit {}
  (order.walk m.gids).filterMap fun gid => (m.group gid).complete F

end Pass

/-! ### Collecting the calls again -/

section Collect

variable {ι τ ν : Type*}

/-- The two blocks of an isolated call, if it is a direct one. -/
def CallAt.blocks (c : CallAt ι) : Option CallBlocks :=
  (c.call.call.bind CallSite.calledFunction).map fun f => ⟨c.entry, c.exit, f⟩

/-- The group of an isolated call. -/
def CallAt.group (c : CallAt ι) : Group :=
  ⟨some c.entry, some c.exit, c.call.call.bind CallSite.calledFunction⟩

/-- The groups of isolated calls. -/
def groupsOf (calls : List (CallAt ι)) : Groups where
  gids := calls.map CallAt.gid
  group gid := ((calls.find? fun c => c.gid = gid).map CallAt.group).getD {}

private theorem gids_groupsOf (calls : List (CallAt ι)) :
    (groupsOf calls).gids = calls.map CallAt.gid := rfl

private theorem group_groupsOf (calls : List (CallAt ι)) (gid : ℕ) : (groupsOf calls).group gid =
    ((calls.find? fun c => c.gid = gid).map CallAt.group).getD {} := rfl

private theorem gids_modify_of_mem {m : Groups} {gid : ℕ} {f : Group → Group} (h : gid ∈ m.gids) :
    (m.modify gid f).gids = m.gids := if_pos h

private theorem gids_modify_of_notMem {m : Groups} {gid : ℕ} {f : Group → Group}
    (h : gid ∉ m.gids) : (m.modify gid f).gids = m.gids ++ [gid] := if_neg h

/-- The outline of a block in the walk. -/
private def visitOutline (m : Groups) (O : Outline (Instruction ι) τ ℕ) : Groups :=
  (O.insts.foldl (Groups.visitInst O.label) m).visitTerm O.label O.term

private theorem visit_plain (m : Groups) {O : Outline (Instruction ι) τ ℕ} (h : IsPlain O) :
    visitOutline m O = m := by
  have hinsts : ∀ is : List (Instruction ι), (∀ i ∈ is, i.callEntry = none) →
      is.foldl (Groups.visitInst O.label) m = m := by
    intro is
    induction is with
    | nil => exact fun _ => rfl
    | cons i is ih =>
      intro his
      have hi : Groups.visitInst O.label m i = m := by
        rw [Groups.visitInst, his i (List.mem_cons_self ..)]
      rw [List.foldl_cons, hi]
      exact ih fun j hj => his j (List.mem_cons_of_mem _ hj)
  rw [visitOutline, hinsts O.insts h.1, Groups.visitTerm, h.2]

/-- The two blocks of a call complete its group. -/
private theorem visit_pieces {calls : List (CallAt ι)} {c : CallAt ι}
    (hc : c.gid ∉ calls.map CallAt.gid) :
    (c.pieces (τ := τ)).foldl visitOutline (groupsOf calls) = groupsOf (calls ++ [c]) := by
  have hnone : (calls.find? fun d => d.gid = c.gid) = none :=
    List.find?_eq_none.mpr fun d hd => by simpa using fun he => hc (List.mem_map.mpr ⟨d, hd, he⟩)
  have hfirst : visitOutline (τ := τ) (groupsOf calls)
      ⟨c.entry, false, [c.call.mark c.gid], .br c.exit none⟩ =
        (groupsOf calls).modify c.gid fun g =>
          { g with
            entry := some c.entry, callee := c.call.call.bind CallSite.calledFunction } := rfl
  have hsecond : ∀ m : Groups, visitOutline m
      (⟨c.exit, false, [], .br c.post (some c.gid)⟩ : Outline (Instruction ι) τ ℕ) =
        m.modify c.gid fun g => { g with exit := some c.exit } := fun _ => rfl
  have hstart : (groupsOf calls).group c.gid = {} := by rw [group_groupsOf, hnone]; rfl
  rw [CallAt.pieces, List.foldl_cons, List.foldl_cons, List.foldl_nil, hfirst, hsecond]
  refine Groups.ext ?_ (funext fun g => ?_)
  · rw [gids_modify_of_mem (by rw [gids_modify_of_notMem hc]; simp), gids_modify_of_notMem hc,
      gids_groupsOf, gids_groupsOf, List.map_append, List.map_singleton]
  · rw [group_groupsOf, List.find?_append]
    rcases eq_or_ne g c.gid with rfl | hne
    · simp [Groups.modify, hnone, hstart, CallAt.group]
    · simp [Groups.modify, hne, hne.symm, group_groupsOf]

private theorem foldl_visit {Os : List (Outline (Instruction ι) τ ℕ)} {calls : List (CallAt ι)}
    (h : Layout Os calls) (hgids : (calls.map CallAt.gid).Nodup) :
    Os.foldl visitOutline {} = groupsOf calls := by
  induction h with
  | nil => rfl
  | plain _ hO ih => rw [List.foldl_append, ih hgids, List.foldl_cons, List.foldl_nil,
      visit_plain _ hO]
  | call c _ ih =>
    rw [List.map_append, List.map_singleton] at hgids
    obtain ⟨hcalls, -, hne⟩ := List.nodup_append.mp hgids
    have hnot : c.gid ∉ List.map CallAt.gid _ :=
      fun h => hne _ h _ (List.mem_singleton_self _) rfl
    rw [List.foldl_append, ih hcalls, visit_pieces hnot]

private theorem complete_group (F : Body ι τ ν) (c : CallAt ι) :
    c.group.complete F = c.blocks := by
  rw [CallAt.group, Group.complete, CallAt.blocks]
  rcases c.call.call.bind CallSite.calledFunction with _ | f <;> rfl

/-- **Collecting is exact** on code with isolated calls, in whatever order the table is walked. -/
theorem collectIsolatedCalls_of_layout (order : WalkOrder) {F : Body ι τ ν}
    {calls : List (CallAt ι)} (h : Layout F.outline calls)
    (hgids : (calls.map CallAt.gid).Nodup) :
    (collectIsolatedCalls order F).Perm (calls.filterMap CallAt.blocks) := by
  have hwalk : F.blocks.foldl Groups.visit {} = groupsOf calls := by
    rw [← foldl_visit h hgids, Code.outline, List.foldl_map]
    rfl
  have hinserted : (calls.map CallAt.gid).filterMap
      (fun gid => ((groupsOf calls).group gid).complete F) = calls.filterMap CallAt.blocks := by
    rw [List.filterMap_map]
    refine List.filterMap_congr fun c hc => ?_
    rw [Function.comp_apply, group_groupsOf, find?_of_nodup hgids hc]
    exact complete_group F c
  rw [collectIsolatedCalls, hwalk, gids_groupsOf, ← hinserted]
  exact (order.perm _).filterMap _

/-- The blocks of isolated calls are in the code. -/
theorem Layout.pieces_mem {Os : List (Outline (Instruction ι) τ ℕ)} {calls : List (CallAt ι)}
    (h : Layout Os calls) {c : CallAt ι} (hc : c ∈ calls) : ∀ O ∈ c.pieces, O ∈ Os := by
  induction h with
  | nil => cases hc
  | plain _ _ ih => exact fun O hO => List.mem_append_left _ (ih hc O hO)
  | call d _ ih =>
    intro O hO
    rcases List.mem_append.mp hc with hc | hc
    · exact List.mem_append_left _ (ih hc O hO)
    · obtain rfl := List.mem_singleton.mp hc
      exact List.mem_append_right _ hO

/-- The blocks of different calls are different. -/
theorem Layout.sublist_labels {Os : List (Outline (Instruction ι) τ ℕ)} {calls : List (CallAt ι)}
    (h : Layout Os calls) :
    (calls.flatMap fun c => [c.entry, c.exit]).Sublist (Os.map Outline.label) := by
  induction h with
  | nil => exact List.Sublist.refl _
  | plain _ _ ih =>
    rw [List.map_append]
    exact ih.trans (List.sublist_append_left _ _)
  | call d _ ih =>
    rw [List.flatMap_append, List.map_append]
    exact ih.append (List.Sublist.refl _)

end Collect

/-! ### The module -/

section Modules

variable {ι τ ν : Type*}

/-- The pass has not seen the code. -/
def Unmarked (F : Body ι τ ν) : Prop := ∀ O ∈ F.outline, IsPlain O

private theorem isSome_isolateFunctions (isolatable : CallSite → Bool) (gid : ℕ)
    (Fs : List (Function ι τ ν)) (f : String) :
    (((isolateFunctions isolatable gid Fs).find? fun F => F.name = f).bind Function.body).isSome =
      ((Fs.find? fun F => F.name = f).bind Function.body).isSome := by
  induction Fs generalizing gid with
  | nil => rfl
  | cons F Fs ih =>
    have hcons : ∀ (b : Option (Body ι τ ν)) (Gs : List (Function ι τ ν)),
        ((⟨F.name, b⟩ :: Gs).find? fun F => F.name = f) =
          if F.name = f then some ⟨F.name, b⟩ else Gs.find? fun F => F.name = f := by
      intro b Gs
      rw [List.find?_cons]
      split_ifs with hf <;> simp [hf]
    have hself : ∀ Gs : List (Function ι τ ν), ((F :: Gs).find? fun F => F.name = f) =
        if F.name = f then some F else Gs.find? fun F => F.name = f := hcons F.body
    rw [isolateFunctions, hself]
    split
    · rw [hself]
      split_ifs
      · rfl
      · exact ih gid
    · next body hbody =>
        split_ifs with hinfra hf hf
        · rw [hself, if_pos hf]
        · rw [hself, if_neg hf]
          exact ih gid
        · rw [hcons, if_pos hf, Option.bind_some, Option.bind_some, hbody, Option.isSome_some,
            Option.isSome_some]
        · rw [hcons, if_neg hf]
          exact ih _

theorem isDefined_isolate (M : Module ι τ ν) : M.isolate.isDefined = M.isDefined :=
  funext fun f => isSome_isolateFunctions M.isIsolatableCall 0 M.functions f

/-- What becomes of one body: that of an infrastructure function stays as it is. -/
def BodyIsolated (isolatable : CallSite → Bool) (name : String) (body body' : Body ι τ ν)
    (calls : List (CallAt ι)) : Prop :=
  if isBenchmarkInfrastructureFunction name then body' = body ∧ calls = []
  else ∃ g g', isolateInFunction isolatable body g = (body', g') ∧
    Isolates isolatable body g body' g' calls

/-- The first function, and the rest from the next group number on. -/
private theorem isolateFunctions_cons (isolatable : CallSite → Bool) {F : Function ι τ ν}
    (hplain : ∀ body, F.body = some body → Unmarked body) (gid : ℕ) (Fs : List (Function ι τ ν)) :
    ∃ (H : Function ι τ ν) (calls : List (CallAt ι)),
      isolateFunctions isolatable gid (F :: Fs) =
        H :: isolateFunctions isolatable (gid + calls.length) Fs ∧
      H.name = F.name ∧ calls.map CallAt.gid = List.range' gid calls.length ∧
      ∀ body, F.body = some body → ∃ body', H.body = some body' ∧
        BodyIsolated isolatable F.name body body' calls := by
  rw [isolateFunctions]
  split
  · next hnone => exact ⟨F, [], rfl, rfl, rfl, fun body hb => by rw [hnone] at hb; cases hb⟩
  · next body hbody =>
      split_ifs with hinfra
      · refine ⟨F, [], rfl, rfl, rfl, fun b hb => ⟨b, hb, ?_⟩⟩
        rw [BodyIsolated, if_pos hinfra]
        exact ⟨rfl, rfl⟩
      · obtain ⟨calls, h⟩ := isolates_isolateInFunction isolatable (hplain body hbody) gid
        refine ⟨⟨F.name, some (isolateInFunction isolatable body gid).1⟩, calls, by rw [← h.next],
          rfl, h.gids, fun b hb => ⟨_, rfl, ?_⟩⟩
        obtain rfl := Option.some.inj (hbody.symm.trans hb)
        rw [BodyIsolated, if_neg hinfra]
        exact ⟨gid, _, rfl, h⟩

/-- The functions one after the other, with the groups numbered through. -/
private theorem isolateFunctions_spec (isolatable : CallSite → Bool) {Fs : List (Function ι τ ν)}
    (hnames : (Fs.map Function.name).Nodup)
    (hplain : ∀ F ∈ Fs, ∀ body, F.body = some body → Unmarked body) (gid : ℕ) :
    ∃ (callsOf : String → List (CallAt ι)) (n : ℕ),
      (Fs.flatMap fun F => (callsOf F.name).map CallAt.gid) = List.range' gid n ∧
      ∀ f body, (Fs.find? fun F => F.name = f).bind Function.body = some body → ∃ body',
        ((isolateFunctions isolatable gid Fs).find? fun F => F.name = f).bind Function.body =
          some body' ∧ BodyIsolated isolatable f body body' (callsOf f) := by
  induction Fs generalizing gid with
  | nil => exact ⟨fun _ => [], 0, rfl, fun f body h => by cases h⟩
  | cons F Fs ih =>
    obtain ⟨hF, hnames⟩ := List.nodup_cons.mp hnames
    obtain ⟨H, calls, heq, hname, hgids, hhead⟩ :=
      isolateFunctions_cons isolatable (hplain F (List.mem_cons_self ..)) gid Fs
    obtain ⟨callsOf, n, hrange, hrest⟩ := ih hnames
      (fun F hF => hplain F (List.mem_cons_of_mem _ hF)) (gid + calls.length)
    -- names are distinct, so no later function overwrites the calls of this one
    refine ⟨Function.update callsOf F.name calls, calls.length + n, ?_, fun f body hbody => ?_⟩
    · have htail : (Fs.flatMap fun G => (Function.update callsOf F.name calls G.name).map
          CallAt.gid) = Fs.flatMap fun G => (callsOf G.name).map CallAt.gid := by
        refine List.flatMap_congr fun G hG => ?_
        rw [Function.update_of_ne fun h => hF (List.mem_map.mpr ⟨G, hG, h⟩)]
      rw [List.flatMap_cons, Function.update_self, htail, hrange, hgids]
      simp
    · rw [heq]
      rw [List.find?_cons] at hbody ⊢
      by_cases hf : F.name = f
      · subst hf
        rw [Function.update_self]
        simp only [decide_true, hname] at hbody ⊢
        exact hhead body hbody
      · rw [Function.update_of_ne (Ne.symm hf)]
        simp only [hf, decide_false, hname] at hbody ⊢
        exact hrest f body hbody

/-- The pass accepted the module: it isolated the calls. -/
private theorem eq_isolate {M M' : Module ι τ ν} {G : CallGraph M} (h : run M G = .ok M') :
    M' = M.isolate := by
  rw [run] at h
  split at h
  · cases h
  · exact (Except.ok.inj h).symm

/-- **What an accepted module becomes.** In every function but those of the infrastructure exactly
the isolatable calls are isolated, each in a group of its own across the module, and every function
behaves as before. -/
theorem run_isolates {M M' : Module ι τ ν} {G : CallGraph M}
    (hplain : ∀ F ∈ M.functions, ∀ body, F.body = some body → Unmarked body)
    (hrun : run M G = .ok M') {σ ε υ : Type*} (N : Meaning ι τ ν σ ε υ) :
    ∃ callsOf : String → List (CallAt ι),
      (M.functions.flatMap fun F => (callsOf F.name).map CallAt.gid).Nodup ∧
      ∀ f body, M.bodyOf f = some body → ∃ body', M'.bodyOf f = some body' ∧
        BodyIsolated M.isIsolatableCall f body body' (callsOf f) ∧
        ∀ c, body.Inside c → EffectProgram.SameBehaviour (body.program (meaning N))
          (body'.program (meaning N)) c c := by
  obtain rfl := eq_isolate hrun
  obtain ⟨callsOf, n, hgids, h⟩ :=
    isolateFunctions_spec M.isIsolatableCall M.nodup_names hplain 0
  refine ⟨callsOf, hgids ▸ List.nodup_range', fun f body hbody => ?_⟩
  obtain ⟨body', hbody', hiso⟩ := h f body hbody
  refine ⟨body', hbody', hiso, fun c hc => ?_⟩
  rw [BodyIsolated] at hiso
  split_ifs at hiso
  · obtain ⟨rfl, -⟩ := hiso
    exact .refl _ c
  · obtain ⟨g, g', hrun, -⟩ := hiso
    obtain rfl : (isolateInFunction M.isIsolatableCall body g).1 = body' := by rw [hrun]
    exact sameBehaviour_isolateCalls _ g hc

/-- `main` calls `work` after one instruction of its own, `work` calls the helper `__mulsi`, and
`debug_putc` is only declared. -/
def callingModule : Module Unit Unit Unit where
  functions :=
    [⟨"main", some ⟨[⟨0, [], [⟨(), none, none⟩, ⟨(), some ⟨false, some "work"⟩, none⟩], .ret ()⟩],
        by decide, by decide, by decide⟩⟩,
      ⟨"work", some ⟨[⟨0, [], [⟨(), some ⟨false, some "__mulsi"⟩, none⟩], .br 1 none⟩,
        ⟨1, [], [⟨(), none, none⟩], .ret ()⟩], by decide, by decide, by decide⟩⟩,
      ⟨"debug_putc", none⟩]
  nodup_names := by decide

private theorem callingModule_unmarked :
    ∀ F ∈ callingModule.functions, ∀ body, F.body = some body → Unmarked body := by
  intro F hF body hbody O hO
  simp only [callingModule, List.mem_cons, List.not_mem_nil, or_false] at hF
  rcases hF with rfl | rfl | rfl
  · obtain rfl := Option.some.inj hbody
    obtain rfl := List.mem_singleton.mp hO
    exact ⟨by simp [BlockCode.Block.outline], rfl⟩
  · obtain rfl := Option.some.inj hbody
    rcases List.mem_pair.mp hO with rfl | rfl
    · exact ⟨by simp [BlockCode.Block.outline], rfl⟩
    · exact ⟨by simp [BlockCode.Block.outline], rfl⟩
  · cases hbody

private theorem callingModule_accepted :
    run callingModule callingModule.callGraph = .ok callingModule.isolate := by
  have h : detectRecursion callingModule.callGraph = none := by decide +kernel
  rw [run, h]

/-- The meaning that counts the instructions. -/
def countingMeaning : Meaning Unit Unit Unit ℕ ℕ ℕ where
  exec _ s := (s + 1, [s])
  choose _ _ := 0
  leave _ s := s
  assign _ s := s
  assign_nil _ := rfl

/-- `main` behaves as before with its call isolated. -/
theorem run_isolates_callingModule :
    ∃ body body', callingModule.bodyOf "main" = some body ∧
      callingModule.isolate.bodyOf "main" = some body' ∧ body'.labels ≠ body.labels ∧
      EffectProgram.SameBehaviour (body.program (meaning countingMeaning))
        (body'.program (meaning countingMeaning)) (.at 0 0) (.at 0 0) := by
  obtain ⟨callsOf, -, h⟩ :=
    run_isolates callingModule_unmarked callingModule_accepted countingMeaning
  obtain ⟨body', hbody', -, hsame⟩ := h "main" _ rfl
  refine ⟨_, body', rfl, hbody', ?_, hsame _ (List.mem_singleton_self 0)⟩
  obtain rfl := Option.some.inj hbody'
  decide +kernel

/-! ### The calls as the solver sees them -/

/-- **`SchematicStateAnalysis::isAllowedDirectCall`**; `onlyReads` are the memory attributes of a
call. -/
def isAllowedDirectCall (M : Module ι τ ν) (onlyReads : ι → Bool) (i : Instruction ι)
    (site : CallSite) : Bool :=
  !site.isInlineAsm && match site.calledFunction with
    | none => false
    | some callee =>
      isIntrinsic callee || callee == "__loop_tripcount" ||
        (callee == "bench_halt" || callee == "bench_commit_result") ||
        isBenchmarkInfrastructureFunction callee || isWhitelistedHelperName callee ||
        (if M.isDefined callee then i.callEntry.isSome else onlyReads i.op)

/-- **`SchematicStateAnalysis::validateCalls`**: the calls it reports, each with its block. -/
def validateCalls (M : Module ι τ ν) (onlyReads : ι → Bool) (F : Body ι τ ν) :
    List (ℕ × Instruction ι) :=
  F.blocks.flatMap fun B => (B.insts.filter fun i => match i.call with
    | none => false
    | some site => !isAllowedDirectCall M onlyReads i site).map fun i => (B.label, i)

/-- The blocks of an isolated call are what the solver takes them for. -/
structure CallBlocks.AreIsolated (F : Body ι τ ν) (c : CallBlocks) : Prop where
  entry : ∃ B ∈ F.blocks, ∃ i site, B.label = c.entry ∧ B.phis = [] ∧ B.insts = [i] ∧
    i.call = some site ∧ site.calledFunction = some c.callee ∧ B.term = .br c.exit none
  exit : ∃ X ∈ F.blocks, ∃ post note, X.label = c.exit ∧ X.phis = [] ∧ X.insts = [] ∧
    X.term = .br post note

private theorem exists_of_isPending {isolatable : CallSite → Bool} {i : Instruction ι}
    (h : isPending isolatable i = true) :
    i.callEntry = none ∧ ∃ site, i.call = some site ∧ isolatable site = true := by
  rw [isPending, Bool.and_eq_true, Option.isNone_iff_eq_none, Option.any_eq_true] at h
  exact h

private theorem exists_of_isIsolatableCall {M : Module ι τ ν} {site : CallSite}
    (h : M.isIsolatableCall site = true) : ∃ f, site.calledFunction = some f ∧
      M.isDefined f = true ∧ isSchematicHelperCallee f = false := by
  rw [Module.isIsolatableCall] at h
  rcases hf : site.calledFunction with _ | f
  · simp [hf] at h
  · rw [hf] at h
    simp only [Bool.and_eq_true, Bool.not_eq_true'] at h
    exact ⟨f, rfl, h.2⟩

private theorem isBenchmarkInfrastructureFunction_of_not_helper {f : String}
    (h : isSchematicHelperCallee f = false) : isBenchmarkInfrastructureFunction f = false := by
  simp only [isSchematicHelperCallee, Bool.or_eq_false_iff] at h
  exact h.1.2

/-- Direct calls lose nothing when they are collected. -/
private theorem filterMap_blocks {calls : List (CallAt ι)}
    (h : ∀ c ∈ calls, ∃ f, c.call.call.bind CallSite.calledFunction = some f) :
    (calls.filterMap CallAt.blocks).map (fun c => some c.callee) =
        calls.map (fun c => c.call.call.bind CallSite.calledFunction) ∧
      ((calls.filterMap CallAt.blocks).flatMap fun c => [c.entry, c.exit]) =
        calls.flatMap fun c => [c.entry, c.exit] := by
  induction calls with
  | nil => exact ⟨rfl, rfl⟩
  | cons c calls ih =>
    obtain ⟨f, hf⟩ := h c (List.mem_cons_self ..)
    obtain ⟨hmap, hflat⟩ := ih fun d hd => h d (List.mem_cons_of_mem _ hd)
    have hblocks : c.blocks = some ⟨c.entry, c.exit, f⟩ := by
      rw [CallAt.blocks, hf, Option.map_some]
    rw [List.filterMap_cons_some hblocks, List.map_cons, hmap, List.map_cons, hf, List.flatMap_cons,
      hflat, List.flatMap_cons]
    exact ⟨rfl, rfl⟩

private theorem areIsolated_of_layout {F : Body ι τ ν} {calls : List (CallAt ι)}
    (h : Layout F.outline calls) {c : CallAt ι} (hc : c ∈ calls) {b : CallBlocks}
    (hb : c.blocks = some b) : b.AreIsolated F := by
  have hphis : ∀ B : BlockCode.Block (Instruction ι) τ ℕ ν,
      B.outline.hasPhis = false → B.phis = [] :=
    fun B hB => by simpa [BlockCode.Block.outline] using hB
  obtain ⟨f, hf, rfl⟩ := Option.map_eq_some_iff.mp hb
  obtain ⟨site, hsite, hcallee⟩ := Option.bind_eq_some_iff.mp hf
  obtain ⟨B, hB, hBout⟩ := List.mem_map.mp (h.pieces_mem hc _ (List.mem_cons_self ..))
  obtain ⟨X, hX, hXout⟩ := List.mem_map.mp
    (h.pieces_mem hc _ (List.mem_cons_of_mem _ (List.mem_singleton_self _)))
  refine ⟨⟨B, hB, c.call.mark c.gid, site, congrArg Outline.label hBout,
    hphis B (congrArg Outline.hasPhis hBout), congrArg Outline.insts hBout, hsite, hcallee,
    congrArg Outline.term hBout⟩, ⟨X, hX, c.post, some c.gid, congrArg Outline.label hXout,
    hphis X (congrArg Outline.hasPhis hXout), congrArg Outline.insts hXout,
    congrArg Outline.term hXout⟩⟩

/-- A direct call to a defined function is a helper's or isolated. -/
private theorem isAllowedDirectCall_of_not_pending {M : Module ι τ ν} (onlyReads : ι → Bool)
    {i : Instruction ι} {site : CallSite} {f : String}
    (hi : isPending M.isIsolatableCall i = false) (hsite : i.call = some site)
    (hasm : site.isInlineAsm = false) (hf : site.calledFunction = some f)
    (hdef : M.isDefined f = true) : isAllowedDirectCall M onlyReads i site = true := by
  rw [isAllowedDirectCall, hasm, hf]
  simp only [Bool.not_false, Bool.true_and, hdef, if_true]
  by_cases hhelper : isSchematicHelperCallee f = true
  · rw [isSchematicHelperCallee] at hhelper
    rw [hhelper, Bool.true_or]
  · have hiso : M.isIsolatableCall site = true := by
      simp [Module.isIsolatableCall, hasm, hf, hdef, hhelper]
    rw [isPending, hsite, Option.any_some, hiso, Bool.and_true] at hi
    have hmarked : i.callEntry.isSome = true := by
      rcases hentry : i.callEntry with _ | g
      · rw [hentry] at hi
        cases hi
      · rfl
    rw [hmarked, Bool.or_true]

/-- **The passes agree on the calls.** In an accepted module the solver collects every isolatable
call once, with blocks of its own, and its callee is one it solves itself. The order in which it
finds them is that of the hash table. No direct call to a defined function is left that it could not
resolve. -/
theorem collected_and_allowed {M M' : Module ι τ ν} {G : CallGraph M}
    (hplain : ∀ F ∈ M.functions, ∀ body, F.body = some body → Unmarked body)
    (hrun : run M G = .ok M') (order : WalkOrder) (onlyReads : ι → Bool) {f : String}
    {body : Body ι τ ν}
    (hinfra : isBenchmarkInfrastructureFunction f = false) (hbody : M.bodyOf f = some body) :
    ∃ body', M'.bodyOf f = some body' ∧
      ((collectIsolatedCalls order body').map fun c => some c.callee).Perm
        ((body.insts.filter (isPending M.isIsolatableCall)).map
          fun i => i.call.bind CallSite.calledFunction) ∧
      ((collectIsolatedCalls order body').flatMap fun c => [c.entry, c.exit]).Nodup ∧
      (∀ c ∈ collectIsolatedCalls order body', c.AreIsolated body' ∧
        M'.isDefined c.callee = true ∧ isBenchmarkInfrastructureFunction c.callee = false) ∧
      ∀ e ∈ validateCalls M' onlyReads body', ∀ site, e.2.call = some site →
        site.isInlineAsm = true ∨
          ∀ callee, site.calledFunction = some callee → M'.isDefined callee = false := by
  obtain rfl := eq_isolate hrun
  obtain ⟨callsOf, n, -, h⟩ := isolateFunctions_spec M.isIsolatableCall M.nodup_names hplain 0
  obtain ⟨body', hbody', hiso⟩ := h f body hbody
  rw [BodyIsolated, if_neg (by simp [hinfra])] at hiso
  obtain ⟨g, g', -, hiso⟩ := hiso
  have hgids : ((callsOf f).map CallAt.gid).Nodup := by
    rw [hiso.gids]
    exact List.nodup_range'
  -- what is isolated was isolatable, so its callee is defined and no helper
  have hcallee : ∀ c ∈ callsOf f, ∃ callee, c.call.call.bind CallSite.calledFunction = some callee ∧
      M.isDefined callee = true ∧ isSchematicHelperCallee callee = false := by
    intro c hc
    have hmem : c.call ∈ body.insts.filter (isPending M.isIsolatableCall) := by
      rw [← hiso.calls_eq]
      exact List.mem_map_of_mem hc
    obtain ⟨-, site, hsite, hisolatable⟩ := exists_of_isPending (List.mem_filter.mp hmem).2
    obtain ⟨callee, hcallee, hdef, hhelper⟩ := exists_of_isIsolatableCall hisolatable
    exact ⟨callee, by rw [hsite, Option.bind_some, hcallee], hdef, hhelper⟩
  obtain ⟨hmap, hflat⟩ := filterMap_blocks fun c hc => (hcallee c hc).imp fun _ h => h.1
  have hcollected := collectIsolatedCalls_of_layout order hiso.layout hgids
  refine ⟨body', hbody', ?_, ?_, fun b hb => ?_, fun e he site hsite => ?_⟩
  · refine (hcollected.map _).trans (List.Perm.of_eq ?_)
    rw [hmap, ← hiso.calls_eq, List.map_map]
    rfl
  · rw [(hcollected.flatMap_right _).nodup_iff, hflat]
    refine hiso.layout.sublist_labels.nodup ?_
    rw [Code.labels_outline]
    exact body'.nodup_labels
  · obtain ⟨c, hc, hcb⟩ := List.mem_filterMap.mp (hcollected.mem_iff.mp hb)
    obtain ⟨callee, hcall, hdef, hhelper⟩ := hcallee c hc
    have hb' : b = ⟨c.entry, c.exit, callee⟩ := by
      rw [CallAt.blocks, hcall, Option.map_some] at hcb
      exact (Option.some.inj hcb).symm
    rw [hb', isDefined_isolate]
    exact ⟨hb' ▸ areIsolated_of_layout hiso.layout hc hcb, hdef,
      isBenchmarkInfrastructureFunction_of_not_helper hhelper⟩
  · obtain ⟨B, hB, he⟩ := List.mem_flatMap.mp he
    obtain ⟨i, hi, rfl⟩ := List.mem_map.mp he
    obtain ⟨hiB, herror⟩ := List.mem_filter.mp hi
    have hi' : isPending M.isIsolatableCall i = false :=
      hiso.none_left i (List.mem_flatMap.mpr ⟨B, hB, hiB⟩)
    rw [show i.call = some site from hsite] at herror
    rcases hasm : site.isInlineAsm with _ | _
    · refine .inr fun callee hcallee => ?_
      by_contra hdef
      rw [isDefined_isolate] at hdef
      -- whatever could not be isolated is allowed by `validateCalls`
      have hallowed : isAllowedDirectCall M.isolate onlyReads i site = true := by
        have hsame : isAllowedDirectCall M.isolate onlyReads i site =
            isAllowedDirectCall M onlyReads i site := by
          rw [isAllowedDirectCall, isAllowedDirectCall, isDefined_isolate]
        rw [hsame]
        exact isAllowedDirectCall_of_not_pending onlyReads hi' hsite hasm hcallee
          (by simpa using hdef)
      simp [hallowed] at herror
    · exact .inl rfl

/-- The table walked from the last key to the first. -/
def WalkOrder.backwards : WalkOrder := ⟨List.reverse, List.reverse_perm⟩

/-- The one call of `main` is collected, and nothing of `main` is left unresolved. -/
theorem collected_and_allowed_callingModule :
    ∃ body', callingModule.isolate.bodyOf "main" = some body' ∧
      (collectIsolatedCalls .backwards body').map (fun c => some c.callee) = [some "work"] ∧
      validateCalls callingModule.isolate (fun _ => false) body' = [] := by
  obtain ⟨body', hbody', hcalls, -⟩ := collected_and_allowed callingModule_unmarked
    callingModule_accepted .backwards (fun _ => false) (f := "main") (by decide +kernel) rfl
  refine ⟨body', hbody', List.perm_singleton.mp (hcalls.trans (List.Perm.of_eq ?_)), ?_⟩
  · decide +kernel
  obtain rfl := Option.some.inj hbody'
  rfl

end Modules

end Bao.Schematic.CallIsolation
