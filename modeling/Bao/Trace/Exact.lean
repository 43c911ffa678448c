import Bao.Trace.Runtime

/-!
# What the trace runtime records

The events of a run are well nested: they are given by the calls that were made, the loops that were
run inside each call, and the blocks in between (`Acts`). What a run should leave behind is read off
this structure. The **path** of a call is the sequence of its blocks, where a loop counts with the
blocks after its last finished iteration only; the path of an iteration is the same inside its loop.

A run that always finds room in the tables and never enters one function twice is recorded exactly
(`trace_exact_of_careful`): every return restores the state of the caller, and the JSON has one
entry for each function with its paths and their numbers. A second call of a function takes a second
slot, and its name is written twice.
-/

namespace Bao.Trace

/-! ### Well-nested runs -/

/-- What happens in a function, or in a loop with a given id. The end of an iteration belongs to the
innermost open loop. -/
inductive Acts : Option ℕ → Type
  | nil {l : Option ℕ} : Acts l
  | bb {l : Option ℕ} (i : ℕ) (rest : Acts l) : Acts l
  | iterEnd {loopId : ℕ} (rest : Acts (some loopId)) : Acts (some loopId)
  | loop {l : Option ℕ} (loopId headerBb : ℕ) (body : Acts (some loopId)) (rest : Acts l) : Acts l
  | call {l : Option ℕ} (info : FuncTraceMeta) (body : Acts none) (rest : Acts l) : Acts l

namespace Acts

variable {l : Option ℕ}

/-- The calls of the runtime. -/
def events : {l : Option ℕ} → Acts l → List TraceEvent
  | _, .nil => []
  | _, .bb i rest => .bb i :: rest.events
  | some loopId, .iterEnd rest => .loopIterEnd loopId :: rest.events
  | _, .loop loopId headerBb body rest =>
    .loopEnter loopId headerBb :: body.events ++ .loopExit loopId :: rest.events
  | _, .call info body rest => .funcEnter info :: body.events ++ .funcExit :: rest.events

/-- The path since the last finished iteration, after a given beginning. -/
def openPath : {l : Option ℕ} → List ℕ → Acts l → List ℕ
  | _, path, .nil => path
  | _, path, .bb i rest => rest.openPath (path ++ [i])
  | _, _, .iterEnd rest => rest.openPath []
  | _, path, .loop _ _ body rest => rest.openPath (path ++ body.openPath [])
  | _, path, .call _ _ rest => rest.openPath path

/-- The finished iterations of the loops of a function, with their loops. -/
def iterations : {l : Option ℕ} → List ℕ → Acts l → List (ℕ × List ℕ)
  | _, _, .nil => []
  | _, path, .bb i rest => rest.iterations (path ++ [i])
  | some loopId, path, .iterEnd rest => (loopId, path) :: rest.iterations []
  | _, path, .loop _ _ body rest =>
    body.iterations [] ++ rest.iterations (path ++ body.openPath [])
  | _, path, .call _ _ rest => rest.iterations path

end Acts

/-- What a call of a function executes: its path, and the iterations of its loops. -/
structure Executed where
  info : FuncTraceMeta
  path : List ℕ
  iterations : List (ℕ × List ℕ)

/-- The calls, in the order in which they were entered. -/
def Acts.calls : {l : Option ℕ} → Acts l → List Executed
  | _, .nil => []
  | _, .bb _ rest => rest.calls
  | _, .iterEnd rest => rest.calls
  | _, .loop _ _ body rest => body.calls ++ rest.calls
  | _, .call info body rest =>
    ⟨info, body.openPath [], body.iterations []⟩ :: (body.calls ++ rest.calls)

/-- The run of a program: calls, one after the other. -/
abbrev Program := List (FuncTraceMeta × Acts none)

/-- The calls of the runtime for one call of a function. -/
def callEvents (info : FuncTraceMeta) (body : Acts none) : List TraceEvent :=
  .funcEnter info :: body.events ++ [.funcExit]

def Program.events (run : Program) : List TraceEvent := run.flatMap fun c => callEvents c.1 c.2

/-- The calls of a program. -/
def Program.calls (run : Program) : List Executed := run.flatMap fun c =>
    (Acts.call (l := none) c.1 c.2 .nil).calls

/-! ### Exact records -/

/-- The name under which a loop is written. -/
def FuncTraceMeta.loopHeaderName (info : FuncTraceMeta) (loopId : ℕ) : String :=
  (info.loops[loopId]?.map LoopTraceMeta.headerName).getD "unknown"

/-- **The written paths are the executed ones**: each different path once, with the number of times
it was executed. -/
def WrittenExactly (info : FuncTraceMeta) (written : List JsonTrace) (executed : List (List ℕ)) :
    Prop :=
  ∃ paths : List (List ℕ), paths.Nodup ∧ (∀ p, p ∈ paths ↔ p ∈ executed) ∧
    written = paths.map fun p => ⟨p.map info.bbName, executed.count p⟩

/-- The executed iterations of a loop. -/
def iterationsOf (loopId : ℕ) (iterations : List (ℕ × List ℕ)) : List (List ℕ) :=
  (iterations.filter fun it => it.1 = loopId).map Prod.snd

/-- The written loops are those with a finished iteration, each with its executed iterations. -/
def LoopsWrittenExactly (info : FuncTraceMeta) (written : List JsonLoop)
    (executed : List (ℕ × List ℕ)) : Prop :=
  ∃ ids : List ℕ, ids.Nodup ∧ (∀ id, id ∈ ids ↔ id ∈ executed.map Prod.fst) ∧
    List.Forall₂ (fun id loop => loop.header = info.loopHeaderName id ∧
      WrittenExactly info loop.traces (iterationsOf id executed)) ids written

/-- **What ran is what is written**: one entry for each function that was called, with the paths of
all its calls and the iterations of its loops in all its calls. -/
structure RecordsExactly (calls : List Executed) (written : List JsonFunction) : Prop where
  nodup : (written.map JsonFunction.name).Nodup
  mem_iff : ∀ name, name ∈ written.map JsonFunction.name ↔ name ∈ calls.map (·.info.funcName)
  exact : ∀ f ∈ written, ∃ c ∈ calls, c.info.funcName = f.name ∧
    WrittenExactly c.info f.traces
      ((calls.filter fun d => d.info.funcName = f.name).map Executed.path) ∧
    LoopsWrittenExactly c.info f.loopTraces
      ((calls.filter fun d => d.info.funcName = f.name).flatMap Executed.iterations)

/-! ### Careful runs -/

/-- The path of the innermost open loop, or of the function. -/
def FuncState.active (fs : FuncState) : List ℕ :=
  match fs.loopStack with
  | lc :: _ => lc.bbs
  | [] => fs.funcTraceBbs

/-- How often a path was saved. -/
def TraceArray.countOf (ta : TraceArray) (bbs : List ℕ) : ℕ :=
  ((ta.find? fun t => t.bbs = bbs).map fun t => t.count.toNat).getD 0

/-- There is room for what an event does to the current function: buffers, open loops and loop
results are not full, and no path to be saved is empty or was saved `2 ^ 31 - 1` times. -/
def FuncState.HasRoom (fs : FuncState) : TraceEvent → Prop
  | .funcEnter _ => True
  | .bb _ => fs.active.length < iterBufCap
  | .loopEnter _ _ => fs.loopStack.length < maxLoopDepth
  | .loopIterEnd loopId => fs.active ≠ [] ∧
      (loopId ∈ fs.loopResults.map LoopResult.loopId ∨ fs.loopResults.length < maxLoopsPerFunc) ∧
      ∀ lr ∈ fs.loopResults, lr.loopId = loopId → lr.traces.countOf fs.active < 2 ^ 31 - 1
  | .loopExit _ => ∀ lc ∈ fs.loopStack.head?,
      { fs with loopStack := fs.loopStack.tail }.active.length + lc.bbs.length ≤ iterBufCap
  | .funcExit => fs.funcTraceBbs ≠ []

/-- There is a slot and room on the call stack for a function, and it has no slot already. -/
def TraceState.CanEnter (S : TraceState) : TraceEvent → Prop
  | .funcEnter info => S.funcStates.length < maxFunctions ∧
      (S.current ≠ none → S.callStack.length < maxCallDepth) ∧
      info.funcName ∉ S.funcStates.map (·.info.funcName)
  | _ => True

/-- **A careful step** finds room, and does not enter a function twice. -/
def TraceState.Careful (S : TraceState) (e : TraceEvent) : Prop :=
  S.CanEnter e ∧ ∀ i ∈ S.current, ∀ fs ∈ S.funcStates[i]?, fs.HasRoom e

/-- Every step of a run is careful. -/
def TraceState.CarefulRun : TraceState → List TraceEvent → Prop
  | _, [] => True
  | S, e :: es => S.Careful e ∧ (S.step e).CarefulRun es

instance (fs : FuncState) : DecidablePred fs.HasRoom
  | .funcEnter _ => inferInstanceAs (Decidable True)
  | .bb _ => inferInstanceAs (Decidable (_ < _))
  | .loopEnter _ _ => inferInstanceAs (Decidable (_ < _))
  | .loopIterEnd _ => inferInstanceAs (Decidable (_ ∧ _ ∧ _))
  | .loopExit _ => inferInstanceAs (Decidable (∀ lc ∈ fs.loopStack.head?, _))
  | .funcExit => inferInstanceAs (Decidable (_ ≠ _))

instance (S : TraceState) : DecidablePred S.CanEnter
  | .funcEnter _ => inferInstanceAs (Decidable (_ ∧ _ ∧ _))
  | .bb _ | .loopEnter _ _ | .loopIterEnd _ | .loopExit _ | .funcExit =>
    inferInstanceAs (Decidable True)

instance (S : TraceState) : DecidablePred S.Careful :=
  fun _ => inferInstanceAs (Decidable (_ ∧ _))

instance decidableCarefulRun : (S : TraceState) → (es : List TraceEvent) →
    Decidable (S.CarefulRun es)
  | _, [] => inferInstanceAs (Decidable True)
  | S, e :: es =>
    have := decidableCarefulRun (S.step e) es
    inferInstanceAs (Decidable (_ ∧ _))

theorem run_append (S : TraceState) (es es' : List TraceEvent) :
    S.run (es ++ es') = (S.run es).run es' := List.foldl_append

theorem carefulRun_append {S : TraceState} {es es' : List TraceEvent} :
    S.CarefulRun (es ++ es') ↔ S.CarefulRun es ∧ (S.run es).CarefulRun es' := by
  induction es generalizing S with
  | nil => simp [TraceState.CarefulRun, TraceState.run]
  | cons e es ih => simp [TraceState.CarefulRun, ih, TraceState.run, and_assoc]

/-! ### Saved paths -/

/-- The saved paths are the executed ones, each with its number. -/
structure Recorded (ta : TraceArray) (executed : List (List ℕ)) : Prop where
  nodup : (ta.map UniqueTrace.bbs).Nodup
  mem_iff : ∀ p, p ∈ ta.map UniqueTrace.bbs ↔ p ∈ executed
  count : ∀ t ∈ ta, t.count.toNat = executed.count t.bbs
  lt : ∀ t ∈ ta, t.count.toNat < 2 ^ 31

/-- The search of `save_trace` compares paths. -/
private theorem matches_iff (t : UniqueTrace) (p : List ℕ) :
    (t.bbs.length = p.length ∧ fnv1aHash t.bbs = fnv1aHash p ∧ t.bbs = p) ↔ t.bbs = p :=
  ⟨fun h => h.2.2, fun h => by simp [h]⟩

private theorem count_of_notMem {ta : TraceArray} {p : List ℕ}
    (h : p ∉ ta.map UniqueTrace.bbs) : ta.count p = ta ++ [⟨p, 1⟩] := by
  induction ta with
  | nil => rfl
  | cons t ta ih =>
    rw [List.map_cons, List.mem_cons, not_or] at h
    rw [TraceArray.count, if_neg (by rw [matches_iff]; exact Ne.symm h.1), ih h.2, List.cons_append]

/-- Counts a path once more. -/
private def bump (p : List ℕ) (t : UniqueTrace) : UniqueTrace :=
  if t.bbs = p then { t with count := t.count + 1 } else t

private theorem bump_bbs (p : List ℕ) (t : UniqueTrace) : (bump p t).bbs = t.bbs := by
  rw [bump]
  split_ifs <;> rfl

private theorem map_bump_of_notMem {ta : TraceArray} {p : List ℕ}
    (h : p ∉ ta.map UniqueTrace.bbs) : ta.map (bump p) = ta := by
  refine (List.map_congr_left fun t ht => ?_).trans (List.map_id ta)
  have hne : t.bbs ≠ p := by
    rintro rfl
    exact h (List.mem_map_of_mem ht)
  rw [bump, if_neg hne, id_eq]

private theorem count_of_mem {ta : TraceArray} {p : List ℕ}
    (hnodup : (ta.map UniqueTrace.bbs).Nodup)
    (h : p ∈ ta.map UniqueTrace.bbs) : ta.count p = ta.map (bump p) := by
  induction ta with
  | nil => simp at h
  | cons t ta ih =>
    rw [List.map_cons, List.nodup_cons] at hnodup
    rw [TraceArray.count, List.map_cons]
    simp only [matches_iff]
    split_ifs with ht
    · rw [bump, if_pos ht, map_bump_of_notMem (ht ▸ hnodup.1)]
    · rw [bump, if_neg ht, ih hnodup.2 ((List.mem_cons.mp h).resolve_left (Ne.symm ht))]

private theorem countOf_eq {ta : TraceArray} (hnodup : (ta.map UniqueTrace.bbs).Nodup)
    {t : UniqueTrace}
    (ht : t ∈ ta) : ta.countOf t.bbs = t.count.toNat := by
  have hfind : ta.find? (fun u => u.bbs = t.bbs) = some t := by
    refine List.find?_eq_some_iff_append.mpr ⟨by simp, ?_⟩
    obtain ⟨before, after, rfl⟩ := List.append_of_mem ht
    refine ⟨before, after, rfl, fun u hu => ?_⟩
    rw [List.map_append, List.map_cons, List.nodup_append] at hnodup
    simpa using hnodup.2.2 u.bbs (List.mem_map_of_mem hu) t.bbs (by simp)
  rw [TraceArray.countOf, hfind]
  rfl

/-- The counts after a path was counted once more. -/
private theorem Recorded.count_counted {ta : TraceArray} {executed : List (List ℕ)}
    (h : Recorded ta executed) {p : List ℕ} (hlt : ta.countOf p < 2 ^ 31 - 1) {t : UniqueTrace}
    (ht : t ∈ ta.count p) :
    t.count.toNat = (executed ++ [p]).count t.bbs ∧ t.count.toNat < 2 ^ 31 := by
  rw [List.count_append, List.count_singleton]
  by_cases hmem : p ∈ ta.map UniqueTrace.bbs
  · rw [count_of_mem h.nodup hmem] at ht
    obtain ⟨u, hu, rfl⟩ := List.mem_map.mp ht
    have hold := h.count u hu
    have hbound := h.lt u hu
    rw [bump_bbs, bump]
    split_ifs with heq hbeq hbeq
    · rw [← heq, countOf_eq h.nodup hu] at hlt
      have hsucc : (u.count + 1).toNat = u.count.toNat + 1 := by
        rw [BitVec.toNat_add]
        change (u.count.toNat + 1) % 2 ^ 32 = _
        omega
      exact ⟨by rw [← hold]; exact hsucc, by change (u.count + 1).toNat < _; omega⟩
    · simp [heq] at hbeq
    · exact absurd (by simpa using hbeq : p = u.bbs).symm heq
    · exact ⟨hold, hbound⟩
  · rw [count_of_notMem hmem] at ht
    rcases List.mem_append.mp ht with ht | ht
    · have hne : p ≠ t.bbs := fun heq => hmem (heq ▸ List.mem_map_of_mem ht)
      rw [h.count t ht]
      exact ⟨by simp [hne], h.count t ht ▸ h.lt t ht⟩
    · obtain rfl := List.mem_singleton.mp ht
      have hnone : executed.count p = 0 := List.count_eq_zero.mpr fun hq =>
        hmem ((h.mem_iff p).mpr hq)
      rw [hnone]
      exact ⟨by simp, by change (1 : BitVec 32).toNat < 2 ^ 31; decide⟩

/-- **Saving a path** records one more execution. -/
theorem Recorded.saveTrace {ta : TraceArray} {executed : List (List ℕ)} (h : Recorded ta executed)
    {p : List ℕ} (hp : p ≠ []) (hlt : ta.countOf p < 2 ^ 31 - 1) :
    Recorded (saveTrace ta p) (executed ++ [p]) := by
  have hsave : Trace.saveTrace ta p = ta.count p := by
    rw [Trace.saveTrace, if_neg (by simpa using hp)]
  refine ⟨nodup_saveTrace h.nodup p, fun q => ?_, fun t ht => ?_, fun t ht => ?_⟩
  · rw [hsave, map_bbs_count, List.mem_append, List.mem_singleton, ← h.mem_iff]
    split_ifs with hmem
    · exact ⟨.inl, fun hq => hq.elim id fun hq => hq ▸ hmem⟩
    · rw [List.mem_append, List.mem_singleton]
  · exact (h.count_counted hlt (hsave ▸ ht)).1
  · exact (h.count_counted hlt (hsave ▸ ht)).2

/-- Recorded paths are written exactly. -/
theorem Recorded.writtenExactly {ta : TraceArray} {executed : List (List ℕ)}
    (h : Recorded ta executed) (info : FuncTraceMeta) :
    WrittenExactly info (info.writeTraces ta) executed := by
  refine ⟨ta.map UniqueTrace.bbs, h.nodup, h.mem_iff, ?_⟩
  rw [FuncTraceMeta.writeTraces, List.map_map]
  refine List.map_congr_left fun t ht => ?_
  have hlt := h.lt t ht
  rw [Function.comp_apply, ← h.count t ht, BitVec.toInt_eq_toNat_of_lt (by omega)]

/-! ### Loop results -/

/-- Saves an iteration with the results of its loop. -/
private def addTo (it : ℕ × List ℕ) (lr : LoopResult) : LoopResult :=
  if lr.loopId = it.1 then { lr with traces := saveTrace lr.traces it.2 } else lr

/-- The loop results with a slot for a loop. -/
private def withSlot (results : List LoopResult) (loopId : ℕ) : List LoopResult :=
  if loopId ∈ results.map LoopResult.loopId then results else results ++ [⟨loopId, []⟩]

/-- What the end of an iteration does to the loop results if there is room. -/
def saveIteration (results : List LoopResult) (it : ℕ × List ℕ) : List LoopResult :=
  (withSlot results it.1).map (addTo it)

/-- The loop results are the executed iterations. -/
structure LoopsRecorded (results : List LoopResult) (executed : List (ℕ × List ℕ)) : Prop where
  nodup : (results.map LoopResult.loopId).Nodup
  mem_iff : ∀ id, id ∈ results.map LoopResult.loopId ↔ id ∈ executed.map Prod.fst
  recorded : ∀ lr ∈ results, Recorded lr.traces (iterationsOf lr.loopId executed)

theorem loopsRecorded_nil : LoopsRecorded [] [] := ⟨by simp, by simp, by simp⟩

private theorem addTo_loopId (it : ℕ × List ℕ) (lr : LoopResult) :
    (addTo it lr).loopId = lr.loopId := by
  rw [addTo]
  split_ifs <;> rfl

private theorem recorded_nil : Recorded [] [] := ⟨by simp, by simp, by simp, by simp⟩

private theorem iterationsOf_append (id : ℕ) (its its' : List (ℕ × List ℕ)) :
    iterationsOf id (its ++ its') = iterationsOf id its ++ iterationsOf id its' := by
  simp [iterationsOf]

private theorem iterationsOf_eq_nil {id : ℕ} {its : List (ℕ × List ℕ)} (h : id ∉ its.map Prod.fst) :
    iterationsOf id its = [] := by
  rw [iterationsOf, List.map_eq_nil_iff, List.filter_eq_nil_iff]
  intro it hit hid
  exact h (List.mem_map.mpr ⟨it, hit, by simpa using hid⟩)

/-- A new slot is empty. -/
private theorem mem_withSlot {results : List LoopResult} {loopId : ℕ} {lr : LoopResult}
    (h : lr ∈ withSlot results loopId) :
    lr ∈ results ∨ loopId ∉ results.map LoopResult.loopId ∧ lr = ⟨loopId, []⟩ := by
  rw [withSlot] at h
  split_ifs at h with hin
  · exact .inl h
  · rcases List.mem_append.mp h with h | h
    · exact .inl h
    · exact .inr ⟨hin, List.mem_singleton.mp h⟩

private theorem mem_withSlot_ids (results : List LoopResult) (loopId id : ℕ) :
    id ∈ (withSlot results loopId).map LoopResult.loopId ↔
      id ∈ results.map LoopResult.loopId ∨ id = loopId := by
  rw [withSlot]
  split_ifs with hin
  · refine ⟨.inl, ?_⟩
    rintro (h | rfl)
    · exact h
    · exact hin
  · simp

private theorem nodup_withSlot {results : List LoopResult}
    (h : (results.map LoopResult.loopId).Nodup) (loopId : ℕ) :
    ((withSlot results loopId).map LoopResult.loopId).Nodup := by
  rw [withSlot]
  split_ifs with hin
  · exact h
  · rw [List.map_append, List.nodup_append]
    refine ⟨h, by simp, fun id hid id' hid' heq => hin ?_⟩
    obtain rfl : id' = loopId := by simpa using hid'
    exact heq ▸ hid

/-- **Saving an iteration** keeps the loop results exact. -/
theorem LoopsRecorded.saveIteration {results : List LoopResult} {executed : List (ℕ × List ℕ)}
    (h : LoopsRecorded results executed) (it : ℕ × List ℕ) (hp : it.2 ≠ [])
    (hlt : ∀ lr ∈ results, lr.loopId = it.1 → lr.traces.countOf it.2 < 2 ^ 31 - 1) :
    LoopsRecorded (saveIteration results it) (executed ++ [it]) := by
  have hids : (Trace.saveIteration results it).map LoopResult.loopId =
      (withSlot results it.1).map LoopResult.loopId := by
    simp [Trace.saveIteration, Function.comp_def, addTo_loopId]
  refine ⟨hids ▸ nodup_withSlot h.nodup it.1, fun id => ?_, fun lr hlr => ?_⟩
  · rw [hids, mem_withSlot_ids, h.mem_iff]
    simp
  · obtain ⟨lr, hin, rfl⟩ := List.mem_map.mp hlr
    have hslot : Recorded lr.traces (iterationsOf lr.loopId executed) ∧
        (lr.loopId = it.1 → lr.traces.countOf it.2 < 2 ^ 31 - 1) := by
      rcases mem_withSlot hin with hold | ⟨hnew, rfl⟩
      · exact ⟨h.recorded lr hold, hlt lr hold⟩
      · rw [iterationsOf_eq_nil fun hid => hnew ((h.mem_iff _).mpr hid)]
        exact ⟨recorded_nil, fun _ => by simp [TraceArray.countOf]⟩
    rw [addTo_loopId, iterationsOf_append, addTo]
    split_ifs with heq
    · have hone : iterationsOf lr.loopId [it] = [it.2] := by simp [iterationsOf, heq]
      rw [hone]
      exact hslot.1.saveTrace hp (hslot.2 heq)
    · have hnone : iterationsOf lr.loopId [it] = [] := by simp [iterationsOf, Ne.symm heq]
      rw [hnone, List.append_nil]
      exact hslot.1

/-- Recorded loops are written exactly. -/
theorem LoopsRecorded.writtenExactly {results : List LoopResult} {executed : List (ℕ × List ℕ)}
    (h : LoopsRecorded results executed) (info : FuncTraceMeta) :
    LoopsWrittenExactly info (results.map info.writeLoop) executed := by
  refine ⟨results.map LoopResult.loopId, h.nodup, h.mem_iff, ?_⟩
  rw [List.forall₂_map_left_iff, List.forall₂_map_right_iff, List.forall₂_same]
  intro lr hlr
  have hwritten := (h.recorded lr hlr).writtenExactly info
  rw [FuncTraceMeta.writeLoop, FuncTraceMeta.loopHeaderName]
  cases info.loops[lr.loopId]? with
  | none => exact ⟨rfl, hwritten⟩
  | some loop => exact ⟨rfl, hwritten⟩

/-- A search by loop id and a change at the place found. -/
private theorem modify_findIdx? {results : List LoopResult} (it : ℕ × List ℕ) {i : ℕ}
    (hnodup : (results.map LoopResult.loopId).Nodup)
    (hi : results.findIdx? (fun lr => lr.loopId = it.1) = some i) :
    results.modify i (fun lr => { lr with traces := saveTrace lr.traces it.2 }) =
      results.map (addTo it) := by
  induction results generalizing i with
  | nil => simp at hi
  | cons lr results ih =>
    rw [List.map_cons, List.nodup_cons] at hnodup
    rw [List.findIdx?_cons] at hi
    split_ifs at hi with hlr
    · obtain rfl : 0 = i := Option.some.inj hi
      have heq : lr.loopId = it.1 := by simpa using hlr
      have hrest : results.map (addTo it) = results := by
        refine (List.map_congr_left fun lr' hlr' => ?_).trans (List.map_id results)
        have hne : lr'.loopId ≠ it.1 := by
          intro h
          rw [heq, ← h] at hnodup
          exact hnodup.1 (List.mem_map_of_mem hlr')
        rw [addTo, if_neg hne, id_eq]
      rw [List.map_cons, hrest, addTo, if_pos heq]
      rfl
    · obtain ⟨j, hj, rfl⟩ := Option.map_eq_some_iff.mp hi
      have hne : lr.loopId ≠ it.1 := by simpa using hlr
      rw [List.map_cons, List.modify_succ_cons, ih hnodup.2 hj, addTo, if_neg hne]

/-! ### The effect of events on a function -/

namespace FuncState

/-- The state with another path for the innermost open loop, or the function. -/
def withActive (fs : FuncState) (path : List ℕ) : FuncState :=
  match fs.loopStack with
  | lc :: rest => { fs with loopStack := { lc with bbs := path } :: rest }
  | [] => { fs with funcTraceBbs := path }

/-- The state with other loop results. -/
def withResults (fs : FuncState) (results : List LoopResult) : FuncState :=
  { fs with loopResults := results }

variable (fs : FuncState) (path path' : List ℕ) (results : List LoopResult)

@[simp]
theorem active_withActive : (fs.withActive path).active = path := by
  rcases fs with ⟨info, bbs, _ | ⟨lc, rest⟩, traces, loops⟩ <;> rfl

@[simp]
theorem withActive_withActive : (fs.withActive path).withActive path' = fs.withActive path' := by
  rcases fs with ⟨info, bbs, _ | ⟨lc, rest⟩, traces, loops⟩ <;> rfl

@[simp]
theorem withActive_active : fs.withActive fs.active = fs := by
  rcases fs with ⟨info, bbs, _ | ⟨lc, rest⟩, traces, loops⟩ <;> rfl

@[simp]
theorem withResults_withActive :
    (fs.withActive path).withResults results = (fs.withResults results).withActive path := by
  rcases fs with ⟨info, bbs, _ | ⟨lc, rest⟩, traces, loops⟩ <;> rfl

@[simp]
theorem loopResults_withActive : (fs.withActive path).loopResults = fs.loopResults := by
  rcases fs with ⟨info, bbs, _ | ⟨lc, rest⟩, traces, loops⟩ <;> rfl

@[simp]
theorem active_withResults : (fs.withResults results).active = fs.active := rfl

@[simp]
theorem withResults_loopResults : fs.withResults fs.loopResults = fs := rfl

@[simp]
theorem withResults_withResults (results' : List LoopResult) :
    (fs.withResults results).withResults results' = fs.withResults results' := rfl

@[simp]
theorem loopResults_withResults : (fs.withResults results).loopResults = results := rfl

@[simp]
theorem loopStack_withActive_eq_nil : (fs.withActive path).loopStack = [] ↔ fs.loopStack = [] := by
  rcases fs with ⟨info, bbs, _ | ⟨lc, rest⟩, traces, loops⟩ <;> simp [withActive]

@[simp]
theorem loopStack_withResults : (fs.withResults results).loopStack = fs.loopStack := rfl

/-- The state after what happens in the innermost open loop, or the function. -/
def after {l : Option ℕ} (a : Acts l) : FuncState :=
  (fs.withResults ((a.iterations fs.active).foldl saveIteration fs.loopResults)).withActive
    (a.openPath fs.active)

variable {fs}

/-- A block, with room in the buffer. -/
theorem appendBb_eq {i : ℕ} (h : fs.active.length < iterBufCap) :
    fs.appendBbToActiveContext i = fs.withActive (fs.active ++ [i]) := by
  rcases fs with ⟨info, bbs, _ | ⟨lc, rest⟩, traces, loops⟩
  · exact if_pos h
  · exact if_pos h

/-- A path, with room in the buffer. -/
theorem appendPath_eq {bbs : List ℕ} (h : fs.active.length + bbs.length ≤ iterBufCap) :
    fs.appendPathToActiveContext bbs = fs.withActive (fs.active ++ bbs) := by
  induction bbs generalizing fs with
  | nil => simp [appendPathToActiveContext]
  | cons i bbs ih =>
    rw [List.length_cons] at h
    change (fs.appendBbToActiveContext i).appendPathToActiveContext bbs = _
    rw [appendBb_eq (by omega), ih (by simp; omega)]
    simp

/-- There is a slot for the loop. -/
private theorem getLoopResult_eq {loopId : ℕ}
    (hroom : loopId ∈ fs.loopResults.map LoopResult.loopId ∨
      fs.loopResults.length < maxLoopsPerFunc) :
    ∃ i, fs.getLoopResult loopId = (fs.withResults (withSlot fs.loopResults loopId), some i) ∧
      (withSlot fs.loopResults loopId).findIdx? (fun lr => lr.loopId = loopId) = some i := by
  rw [getLoopResult, withSlot]
  cases hfind : fs.loopResults.findIdx? (fun lr => lr.loopId = loopId) with
  | some i =>
    have hin : loopId ∈ fs.loopResults.map LoopResult.loopId := by
      obtain ⟨hi, heq, -⟩ := List.findIdx?_eq_some_iff_getElem.mp hfind
      exact List.mem_map.mpr ⟨_, List.getElem_mem hi, by simpa using heq⟩
    refine ⟨i, ?_, ?_⟩
    · rw [if_pos hin, withResults_loopResults]
    · rw [if_pos hin, hfind]
  | none =>
    have hnone := List.findIdx?_eq_none_iff.mp hfind
    have hnew : loopId ∉ fs.loopResults.map LoopResult.loopId := by
      intro hin
      obtain ⟨lr, hlr, heq⟩ := List.mem_map.mp hin
      simpa [heq] using hnone lr hlr
    have hlen := hroom.resolve_left hnew
    refine ⟨fs.loopResults.length, ?_, ?_⟩
    · rw [if_neg hnew, if_neg (by omega)]
      rfl
    · rw [if_neg hnew, List.findIdx?_append, hfind]
      simp

/-- The end of an iteration, with room in the loop results. -/
theorem iterEnd_eq {loopId : ℕ} (hopen : fs.loopStack ≠ [])
    (hnodup : (fs.loopResults.map LoopResult.loopId).Nodup)
    (hroom : loopId ∈ fs.loopResults.map LoopResult.loopId ∨
      fs.loopResults.length < maxLoopsPerFunc) :
    fs.iterEnd loopId =
      (fs.withResults (saveIteration fs.loopResults (loopId, fs.active))).withActive [] := by
  obtain ⟨i, hget, hi⟩ := getLoopResult_eq hroom
  have hmodify := modify_findIdx? (loopId, fs.active) (nodup_withSlot hnodup loopId) hi
  rcases fs with ⟨info, bbs, _ | ⟨lc, rest⟩, traces, loops⟩
  · exact absurd rfl hopen
  · simp only [iterEnd, hget]
    change FuncState.mk _ _ _ _ _ = FuncState.mk _ _ _ _ _
    rw [saveIteration, ← hmodify]
    rfl

/-! What the events of a structured run do one after the other. -/

theorem after_nil {l : Option ℕ} : fs.after (.nil : Acts l) = fs := by
  simp [after, Acts.iterations, Acts.openPath]

theorem after_bb {l : Option ℕ} (i : ℕ) (rest : Acts l) :
    (fs.withActive (fs.active ++ [i])).after rest = fs.after (.bb i rest) := by
  simp [after, Acts.iterations, Acts.openPath]

theorem after_iterEnd {loopId : ℕ} (rest : Acts (some loopId)) :
    ((fs.withResults (saveIteration fs.loopResults (loopId, fs.active))).withActive []).after rest =
      fs.after (.iterEnd rest) := by
  simp [after, Acts.iterations, Acts.openPath]

theorem after_call {l : Option ℕ} (info : FuncTraceMeta) (body : Acts none) (rest : Acts l) :
    fs.after rest = fs.after (.call info body rest) := by
  simp [after, Acts.iterations, Acts.openPath]

/-- The state after entering a loop. -/
def enterLoop (fs : FuncState) (loopId : ℕ) : FuncState :=
  { fs with loopStack := ⟨loopId, []⟩ :: fs.loopStack }

/-- The state after a loop that was entered and left. -/
def afterLoop (fs : FuncState) {loopId : ℕ} (body : Acts (some loopId)) : FuncState :=
  (fs.withResults ((body.iterations []).foldl saveIteration fs.loopResults)).withActive
    (fs.active ++ body.openPath [])

theorem after_loop {l : Option ℕ} (loopId headerBb : ℕ) (body : Acts (some loopId))
    (rest : Acts l) :
    (fs.afterLoop body).after rest = fs.after (.loop loopId headerBb body rest) := by
  simp [after, afterLoop, Acts.iterations, Acts.openPath]

theorem loopExit_after {loopId : ℕ} (body : Acts (some loopId))
    (h : fs.active.length + (body.openPath []).length ≤ iterBufCap) :
    ((fs.enterLoop loopId).after body).loopExit = fs.afterLoop body :=
  @appendPath_eq (fs.withResults ((body.iterations []).foldl saveIteration fs.loopResults)) _ h

end FuncState

/-- The slot that a call leaves behind. -/
def Executed.closed (c : Executed) : FuncState :=
  ⟨c.info, [], [], saveTrace [] c.path, c.iterations.foldl saveIteration []⟩

/-- The slot of a call is exact. -/
structure Executed.Exact (c : Executed) : Prop where
  path_ne : c.path ≠ []
  loops : LoopsRecorded c.closed.loopResults c.iterations

/-! ### The effect of events on the state -/

section State

variable {S : TraceState} {f : ℕ} {fs : FuncState}

/-- What a structured run does to the state, its slots included: the current function has its
results, and there is a slot for each call. -/
private def TraceState.finish (S : TraceState) (f : ℕ) (fs : FuncState) (calls : List Executed) :
    TraceState :=
  { S with funcStates := S.funcStates.set f fs ++ calls.map Executed.closed }

private theorem onCurrent_eq (hcur : S.current = some f) (hfs : S.funcStates[f]? = some fs)
    (g : FuncState → FuncState) : S.onCurrent g = S.finish f (g fs) [] := by
  simp only [TraceState.onCurrent, hcur, TraceState.finish, List.map_nil, List.append_nil]
  rw [List.modify_eq_set_getElem?, hfs]
  rfl

private theorem getElem?_finish (hfs : S.funcStates[f]? = some fs) (fs' : FuncState)
    (calls : List Executed) : (S.finish f fs' calls).funcStates[f]? = some fs' := by
  obtain ⟨hlt, -⟩ := List.getElem?_eq_some_iff.mp hfs
  rw [TraceState.finish, List.getElem?_append_left (by simpa using hlt)]
  simp [hlt]

private theorem finish_finish (hfs : S.funcStates[f]? = some fs) (fs' fs'' : FuncState)
    (calls calls' : List Executed) :
    (S.finish f fs' calls).finish f fs'' calls' = S.finish f fs'' (calls ++ calls') := by
  obtain ⟨hlt, -⟩ := List.getElem?_eq_some_iff.mp hfs
  simp only [TraceState.finish]
  rw [List.set_append_left _ _ (by simpa using hlt), List.set_set, List.map_append,
    List.append_assoc]

private theorem finish_self (hfs : S.funcStates[f]? = some fs) (calls : List Executed) :
    S.finish f fs calls = { S with funcStates := S.funcStates ++ calls.map Executed.closed } := by
  obtain ⟨hlt, rfl⟩ := List.getElem?_eq_some_iff.mp hfs
  rw [TraceState.finish, List.set_getElem_self]

/-- **A structured run is recorded**: inside a function it leaves the results of the function, and
an exact slot for each call. -/
private def Acts.RunsAs {l : Option ℕ} (a : Acts l) : Prop :=
  ∀ {S : TraceState} {f : ℕ} {fs : FuncState} {executed : List (ℕ × List ℕ)},
    S.current = some f → S.funcStates[f]? = some fs → (l ≠ none → fs.loopStack ≠ []) →
    LoopsRecorded fs.loopResults executed → S.CarefulRun a.events →
    S.run a.events = S.finish f (fs.after a) a.calls ∧
      LoopsRecorded (fs.after a).loopResults (executed ++ a.iterations fs.active) ∧
      ∀ c ∈ a.calls, c.Exact

/-- What a call executes. -/
def callExecuted (info : FuncTraceMeta) (body : Acts none) : Executed :=
  ⟨info, body.openPath [], body.iterations []⟩

/-- The state inside a call, at its beginning. -/
private def TraceState.enter (S : TraceState) (info : FuncTraceMeta) : TraceState :=
  ⟨S.funcStates ++ [.fresh info], some S.funcStates.length, S.current.toList ++ S.callStack⟩

private theorem step_funcEnter {info : FuncTraceMeta} (h : S.Careful (.funcEnter info)) :
    S.step (.funcEnter info) = S.enter info := by
  obtain ⟨hslots, hstack, -⟩ := h.1
  rw [TraceState.step, traceFuncEnter, if_neg (by omega), TraceState.enter]
  cases hcur : S.current with
  | none => rfl
  | some caller => simp [hstack (by simp [hcur])]

/-- **A call** leaves its slots behind and nothing else. -/
private theorem run_call {info : FuncTraceMeta} {body : Acts none} (hbody : body.RunsAs)
    (hbottom : S.current = none → S.callStack = [])
    (hcare : S.CarefulRun (callEvents info body)) :
    S.run (callEvents info body) = { S with funcStates :=
        S.funcStates ++ (callExecuted info body :: body.calls).map Executed.closed } ∧
      ∀ c ∈ callExecuted info body :: body.calls, c.Exact := by
  obtain ⟨henter, hrest⟩ := hcare
  rw [step_funcEnter henter] at hrest
  obtain ⟨hinside, hexit, -⟩ := carefulRun_append.mp hrest
  have hslot : (S.enter info).funcStates[S.funcStates.length]? = some (.fresh info) := by
    simp [TraceState.enter]
  obtain ⟨hrun, hloops, hcalls⟩ := hbody rfl hslot (by simp) loopsRecorded_nil hinside
  have hclosed : ((FuncState.fresh info).after body).close = (callExecuted info body).closed := rfl
  have hrun' : S.run (callEvents info body) =
      ((S.enter info).finish S.funcStates.length ((FuncState.fresh info).after body)
        body.calls).step .funcExit := by
    rw [← hrun, callEvents, List.cons_append, TraceState.run, List.foldl_cons,
      step_funcEnter henter,
      List.foldl_append]
    rfl
  rw [hrun] at hexit
  refine ⟨?_, ?_⟩
  · have hclose := onCurrent_eq (S := (S.enter info).finish S.funcStates.length _ body.calls) rfl
      (getElem?_finish hslot ((FuncState.fresh info).after body) body.calls) .close
    rw [finish_finish hslot, List.append_nil, hclosed] at hclose
    have hslots : ((S.enter info).finish S.funcStates.length (callExecuted info body).closed
        body.calls).funcStates =
        S.funcStates ++ (callExecuted info body :: body.calls).map Executed.closed := by
      simp [TraceState.finish, TraceState.enter]
    rw [hrun', TraceState.step, traceFuncExit, hclose, hslots]
    -- the caller is on top of the stack again
    cases hcur : S.current with
    | none => simp [TraceState.finish, TraceState.enter, hcur, hbottom hcur]
    | some caller => simp [TraceState.finish, TraceState.enter, hcur]
  · rw [List.forall_mem_cons]
    refine ⟨⟨?_, ?_⟩, hcalls⟩
    · exact hexit.2 _ rfl _ (getElem?_finish hslot _ _)
    · exact hloops

/-- **Every structured run is recorded.** -/
private theorem runsAs {l : Option ℕ} (a : Acts l) : a.RunsAs := by
  induction a with
  | nil =>
    intro S f fs executed _ hfs _ hrec _
    refine ⟨?_, ?_, by simp [Acts.calls]⟩
    · rw [FuncState.after_nil, finish_self hfs]
      simp [Acts.events, Acts.calls, TraceState.run]
    · rw [FuncState.after_nil]
      simpa [Acts.iterations] using hrec
  | bb i rest ih =>
    intro S f fs executed hcur hfs hopen hrec hcare
    obtain ⟨hroom, hrest⟩ := hcare
    have hstep : S.step (.bb i) = S.finish f (fs.withActive (fs.active ++ [i])) [] := by
      rw [TraceState.step, traceBb, onCurrent_eq hcur hfs, FuncState.appendBb_eq
        (hroom.2 f hcur fs hfs)]
    rw [hstep] at hrest
    obtain ⟨hrun, hloops, hcalls⟩ := ih (by exact hcur) (getElem?_finish hfs _ _)
      (fun hl => by simpa using hopen hl) (by simpa using hrec) hrest
    refine ⟨?_, ?_, hcalls⟩
    · change (S.step (.bb i)).run rest.events = _
      rw [hstep, hrun, finish_finish hfs, FuncState.after_bb]
      rfl
    · rw [FuncState.after_bb] at hloops
      simpa [Acts.iterations] using hloops
  | @iterEnd loopId rest ih =>
    intro S f fs executed hcur hfs hopen hrec hcare
    obtain ⟨hroom, hrest⟩ := hcare
    obtain ⟨hne, hslot, hcount⟩ := hroom.2 f hcur fs hfs
    have hstep : S.step (.loopIterEnd loopId) = S.finish f ((fs.withResults
        (saveIteration fs.loopResults (loopId, fs.active))).withActive []) [] := by
      rw [TraceState.step, traceLoopIterEnd, onCurrent_eq hcur hfs,
        FuncState.iterEnd_eq (hopen (by simp)) hrec.nodup hslot]
    rw [hstep] at hrest
    obtain ⟨hrun, hloops, hcalls⟩ := ih (by exact hcur) (getElem?_finish hfs _ _)
      (fun hl => by simpa using hopen hl)
      (by simpa using hrec.saveIteration (loopId, fs.active) hne hcount) hrest
    refine ⟨?_, ?_, hcalls⟩
    · change (S.step (.loopIterEnd loopId)).run rest.events = _
      rw [hstep, hrun, finish_finish hfs, FuncState.after_iterEnd]
      rfl
    · rw [FuncState.after_iterEnd] at hloops
      simpa [Acts.iterations] using hloops
  | loop loopId headerBb body rest ihbody ihrest =>
    intro S f fs executed hcur hfs hopen hrec hcare
    obtain ⟨hroom, hinside⟩ := hcare
    have hdepth : fs.loopStack.length < maxLoopDepth := hroom.2 f hcur fs hfs
    have henter : S.step (.loopEnter loopId headerBb) = S.finish f (fs.enterLoop loopId) [] := by
      rw [TraceState.step, traceLoopEnter, onCurrent_eq hcur hfs, if_neg (by omega)]
      rfl
    rw [henter] at hinside
    obtain ⟨hbody, hafter⟩ := carefulRun_append.mp hinside
    -- the body of the loop
    obtain ⟨hrun, hloops, hcalls⟩ := ihbody (by exact hcur)
      (getElem?_finish hfs (fs.enterLoop loopId) []) (fun _ => by simp [FuncState.enterLoop]) hrec
        hbody
    rw [finish_finish hfs, List.nil_append] at hrun
    rw [hrun] at hafter
    obtain ⟨hexit, hrest⟩ := hafter
    have hresults : LoopsRecorded ((body.iterations []).foldl saveIteration fs.loopResults)
        (executed ++ body.iterations []) := hloops
    have hfit : fs.active.length + (body.openPath []).length ≤ iterBufCap :=
      hexit.2 f hcur _ (getElem?_finish hfs _ _) _ rfl
    have hleave : (S.finish f ((fs.enterLoop loopId).after body) body.calls).step
      (.loopExit loopId) =
        S.finish f (fs.afterLoop body) body.calls := by
      rw [TraceState.step, traceLoopExit, onCurrent_eq (by exact hcur) (getElem?_finish hfs _ _),
        finish_finish hfs, List.append_nil, FuncState.loopExit_after body hfit]
    rw [hleave] at hrest
    -- what comes after it
    obtain ⟨hrun', hloops', hcalls'⟩ := ihrest (by exact hcur) (getElem?_finish hfs _ _)
      (fun hl => by simpa [FuncState.afterLoop] using hopen hl)
      (by simpa [FuncState.afterLoop] using hresults) hrest
    refine ⟨?_, ?_, ?_⟩
    · have hevents : S.run (Acts.loop loopId headerBb body rest).events =
          (((S.step (.loopEnter loopId headerBb)).run body.events).step (.loopExit loopId)).run
            rest.events := by
        simp [Acts.events, TraceState.run]
      rw [hevents, henter, hrun, hleave, hrun', finish_finish hfs, FuncState.after_loop]
      rfl
    · rw [FuncState.after_loop] at hloops'
      simpa [Acts.iterations, FuncState.afterLoop] using hloops'
    · simp only [Acts.calls, List.mem_append]
      rintro c (hc | hc)
      · exact hcalls c hc
      · exact hcalls' c hc
  | call info body rest ihbody ihrest =>
    intro S f fs executed hcur hfs hopen hrec hcare
    have hevents : (Acts.call info body rest).events = callEvents info body ++ rest.events := by
      simp [Acts.events, callEvents]
    rw [hevents] at hcare ⊢
    obtain ⟨hcall, hrest⟩ := carefulRun_append.mp hcare
    obtain ⟨hrun, hexact⟩ := run_call ihbody (by simp [hcur]) hcall
    rw [← finish_self hfs] at hrun
    rw [hrun] at hrest
    obtain ⟨hrun', hloops', hcalls'⟩ := ihrest (by exact hcur) (getElem?_finish hfs _ _) hopen
      hrec hrest
    refine ⟨?_, ?_, ?_⟩
    · rw [run_append, hrun, hrun', finish_finish hfs, ← FuncState.after_call info body rest]
      rfl
    · rw [← FuncState.after_call info body rest]
      simpa [Acts.iterations] using hloops'
    · simp only [Acts.calls, List.mem_cons, List.mem_append]
      rintro c (rfl | hc | hc)
      · exact hexact _ (by simp [callExecuted])
      · exact hexact c (by simp [hc])
      · exact hcalls' c hc

end State

/-! ### Whole runs -/

/-- The names of the used slots. -/
def TraceState.names (S : TraceState) : List String := S.funcStates.map (·.info.funcName)

private theorem names_onCurrent (S : TraceState) {g : FuncState → FuncState}
    (hg : ∀ fs, (g fs).info = fs.info) : (S.onCurrent g).names = S.names := by
  rw [TraceState.onCurrent]
  split
  · rfl
  · refine List.ext_getElem? fun i => ?_
    simp only [TraceState.names, List.getElem?_map, List.getElem?_modify]
    split_ifs
    · cases S.funcStates[i]? with
      | none => rfl
      | some fs => simp [hg]
    · simp

/-- Only entering a function adds a name. -/
private theorem nodup_names_step {S : TraceState} {e : TraceEvent} (h : S.Careful e)
    (hnodup : S.names.Nodup) : (S.step e).names.Nodup := by
  cases e with
  | funcEnter info =>
    obtain ⟨-, -, hnew⟩ := h.1
    rw [step_funcEnter h, TraceState.names, TraceState.enter, List.map_append, List.nodup_append]
    refine ⟨hnodup, by simp, fun name hname name' hname' heq => hnew ?_⟩
    obtain rfl : name' = info.funcName := by simpa [FuncState.fresh] using hname'
    exact heq ▸ hname
  | bb i => exact (names_onCurrent S fun fs => FuncState.info_appendBb fs i).symm ▸ hnodup
  | loopEnter loopId headerBb =>
    refine (names_onCurrent S fun fs => ?_).symm ▸ hnodup
    split_ifs <;> rfl
  | loopIterEnd loopId => exact (names_onCurrent S (FuncState.info_iterEnd loopId)).symm ▸ hnodup
  | loopExit loopId => exact (names_onCurrent S FuncState.info_loopExit).symm ▸ hnodup
  | funcExit =>
    rw [TraceState.step, traceFuncExit]
    split
    · exact hnodup
    · exact (names_onCurrent S (g := .close) fun _ => rfl).symm ▸ hnodup

/-- At the bottom of the call stack there is no current function. -/
private theorem bottom_step {S : TraceState} (h : S.current = none → S.callStack = [])
    (e : TraceEvent)
    : (S.step e).current = none → (S.step e).callStack = [] := by
  have honCurrent : ∀ g, (S.onCurrent g).current = none → (S.onCurrent g).callStack = [] := by
    intro g
    rw [TraceState.onCurrent]
    split <;> simpa using h
  cases e with
  | funcEnter info =>
    rw [TraceState.step, traceFuncEnter]
    by_cases hfull : S.funcStates.length ≥ maxFunctions
    · rw [if_pos hfull]
      exact h
    · rw [if_neg hfull]
      exact fun hnone => absurd hnone (by simp)
  | bb i => exact honCurrent _
  | loopEnter loopId headerBb => exact honCurrent _
  | loopIterEnd loopId => exact honCurrent _
  | loopExit loopId => exact honCurrent _
  | funcExit =>
    rw [TraceState.step, traceFuncExit]
    split
    · exact h
    · intro hnone
      rw [List.head?_eq_none_iff.mp hnone]
      rfl

/-- Both invariants hold of every state of a careful run. -/
private theorem invariants_run {S : TraceState} {es : List TraceEvent} (hcare : S.CarefulRun es)
    (hnodup : S.names.Nodup) (hbottom : S.current = none → S.callStack = []) :
    (S.run es).names.Nodup ∧ ((S.run es).current = none → (S.run es).callStack = []) := by
  induction es generalizing S with
  | nil => exact ⟨hnodup, hbottom⟩
  | cons e es ih =>
    exact ih hcare.2 (nodup_names_step hcare.1 hnodup) (bottom_step hbottom e)

/-- **A program** leaves a slot for each of its calls, in order. -/
private theorem run_program {run : Program} {S : TraceState} (hcur : S.current = none)
    (hstack : S.callStack = []) (hcare : S.CarefulRun (Program.events run)) :
    S.run (Program.events run) =
        { S with funcStates := S.funcStates ++ (Program.calls run).map Executed.closed } ∧
      ∀ c ∈ Program.calls run, c.Exact := by
  induction run generalizing S with
  | nil => simp [Program.events, Program.calls, TraceState.run]
  | cons c run ih =>
    have hevents : Program.events (c :: run) = callEvents c.1 c.2 ++ Program.events run := by
      simp [Program.events]
    have hcalls : Program.calls (c :: run) =
        (callExecuted c.1 c.2 :: c.2.calls) ++ Program.calls run := by
      simp [Program.calls, Acts.calls, callExecuted]
    rw [hevents] at hcare
    obtain ⟨hcall, hrest⟩ := carefulRun_append.mp hcare
    obtain ⟨hrun, hexact⟩ := run_call (runsAs c.2) (fun _ => hstack) hcall
    obtain ⟨hrun', hexact'⟩ := ih (by rw [hrun]; exact hcur) (by rw [hrun]; exact hstack) hrest
    rw [hcalls]
    refine ⟨?_, ?_⟩
    · rw [hevents, run_append, hrun', hrun, List.map_append, List.append_assoc]
    · intro d hd
      rcases List.mem_append.mp hd with hd | hd
      · exact hexact d hd
      · exact hexact' d hd

/-- With different names, a function has one call. -/
private theorem filter_name_eq {calls : List Executed}
    (hnodup : (calls.map (·.info.funcName)).Nodup) {c : Executed} (hc : c ∈ calls) :
    calls.filter (fun d => d.info.funcName = c.info.funcName) = [c] := by
  obtain ⟨before, after, rfl⟩ := List.append_of_mem hc
  rw [List.map_append, List.map_cons, List.nodup_append, List.nodup_cons] at hnodup
  obtain ⟨-, ⟨hafter, -⟩, hbefore⟩ := hnodup
  have hnone : ∀ {ds : List Executed}, c.info.funcName ∉ ds.map (·.info.funcName) →
      ds.filter (fun d => d.info.funcName = c.info.funcName) = [] := by
    intro ds hds
    rw [List.filter_eq_nil_iff]
    intro d hd heq
    exact hds (List.mem_map.mpr ⟨d, hd, by simpa using heq⟩)
  rw [List.filter_append, List.filter_cons_of_pos (by simp), hnone hafter,
    hnone fun h => hbefore _ h _ (by simp) rfl, List.nil_append]

/-- Exact slots with different names are written exactly. -/
private theorem recordsExactly {calls : List Executed}
    (hnodup : (calls.map (·.info.funcName)).Nodup) (hexact : ∀ c ∈ calls, c.Exact) :
    RecordsExactly calls ((calls.map Executed.closed).map FuncState.writeFunction) := by
  have hnames : ((calls.map Executed.closed).map FuncState.writeFunction).map JsonFunction.name =
      calls.map (·.info.funcName) := by
    simp [Function.comp_def, FuncState.writeFunction, Executed.closed]
  refine ⟨hnames ▸ hnodup, fun name => by rw [hnames], fun f hf => ?_⟩
  obtain ⟨fs, hfs, rfl⟩ := List.mem_map.mp hf
  obtain ⟨c, hc, rfl⟩ := List.mem_map.mp hfs
  have hfilter : calls.filter (fun d => d.info.funcName = c.closed.writeFunction.name) = [c] :=
    filter_name_eq hnodup hc
  rw [hfilter]
  refine ⟨c, hc, rfl, ?_, ?_⟩
  · have hpath : Recorded (saveTrace [] c.path) ([] ++ [c.path]) :=
      recorded_nil.saveTrace (hexact c hc).path_ne (by simp [TraceArray.countOf])
    exact hpath.writtenExactly c.info
  · rw [List.flatMap_singleton]
    exact (hexact c hc).loops.writtenExactly c.info

/-- **Careful runs are recorded exactly.** If every event of a run finds room in the tables and no
function is entered twice, then every return restores the function and the open loops that were
current before the call, and what is written at the end is what ran. -/
theorem trace_exact_of_careful (run : Program)
    (hcare : TraceState.init.CarefulRun (Program.events run)) :
    (∀ before info body after,
      Program.events run = before ++ callEvents info body ++ after →
      ((TraceState.init.run before).run (callEvents info body)).current =
          (TraceState.init.run before).current ∧
        ((TraceState.init.run before).run (callEvents info body)).callStack =
          (TraceState.init.run before).callStack ∧
        ∀ f ∈ (TraceState.init.run before).current,
          ∀ fs ∈ (TraceState.init.run before).funcStates[f]?,
          fs ∈ ((TraceState.init.run before).run (callEvents info body)).funcStates[f]?) ∧
    RecordsExactly (Program.calls run) (traceWriteJson (TraceState.init.run (Program.events run)))
    := by
  refine ⟨fun before info body after heq => ?_, ?_⟩
  · rw [heq] at hcare
    obtain ⟨hcalled, -⟩ := carefulRun_append.mp hcare
    obtain ⟨hbefore, hcall⟩ := carefulRun_append.mp hcalled
    have hbottom := (invariants_run hbefore (by decide) (by decide)).2
    obtain ⟨hrun, -⟩ := run_call (runsAs body) hbottom hcall
    rw [hrun]
    refine ⟨rfl, rfl, fun f _ fs hfs => ?_⟩
    obtain ⟨hlt, -⟩ := List.getElem?_eq_some_iff.mp hfs
    rwa [Option.mem_def, List.getElem?_append_left hlt]
  · obtain ⟨hrun, hexact⟩ := run_program rfl rfl hcare
    have hnodup := (invariants_run hcare (by decide) (by decide)).1
    rw [hrun] at hnodup ⊢
    refine recordsExactly ?_ hexact
    simpa [TraceState.names, TraceState.init, Function.comp_def, Executed.closed] using hnodup

/-- The metadata of a function without loops and with one block. -/
private def leaf (name : String) : FuncTraceMeta := ⟨name, ["entry"], []⟩

/-- A function with a loop, whose second iteration is left in the header, and a call. -/
def oneLoop : Program :=
  [(⟨"main", ["entry", "header", "latch", "exit"],
      [⟨"header", "latch", 1, ["header", "latch"], ["header"]⟩]⟩,
    .bb 0 (.loop 0 1 (.bb 1 (.bb 2 (.iterEnd (.bb 1 .nil))))
      (.bb 3 (.call (leaf "leaf") (.bb 0 .nil) .nil))))]

theorem trace_exact_of_careful_oneLoop :
    RecordsExactly (Program.calls oneLoop)
        (traceWriteJson (TraceState.init.run (Program.events oneLoop))) ∧
      (Program.calls oneLoop).map Executed.path = [[0, 1, 3], [0]] ∧
      (Program.calls oneLoop).map Executed.iterations = [[(0, [1, 2])], []] :=
  ⟨(trace_exact_of_careful oneLoop (by decide)).2, rfl, rfl⟩

/-- A function that is called twice. -/
def twoCalls : Program :=
  [(leaf "main", .bb 0 (.call (leaf "leaf") (.bb 0 .nil) (.call (leaf "leaf") (.bb 0 .nil) .nil)))]

/-- **A second call takes a second slot**, and the name of the function is written twice. -/
theorem second_call_written_twice :
    (traceWriteJson (TraceState.init.run (Program.events twoCalls))).map JsonFunction.name =
        ["main", "leaf", "leaf"] ∧
      ¬RecordsExactly (Program.calls twoCalls)
        (traceWriteJson (TraceState.init.run (Program.events twoCalls))) := by
  have hnames : (traceWriteJson (TraceState.init.run (Program.events twoCalls))).map
      JsonFunction.name = ["main", "leaf", "leaf"] := by decide
  refine ⟨hnames, fun h => ?_⟩
  have hnodup := h.nodup
  rw [hnames] at hnodup
  revert hnodup
  decide

end Bao.Trace
