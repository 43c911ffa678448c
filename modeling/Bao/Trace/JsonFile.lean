import Bao.Trace.BlockFrequency
import Bao.Trace.Runtime

/-!
# The trace file

The text `__trace_write_json` writes to `schematic_trace.json` for the entries of the functions, and
the JSON value it spells (`denotes_traceText`). A function that was called twice has two entries of
one name; the value keeps both.
-/

namespace Bao.Trace

open Text Json

/-! ### Writing -/

/-- `write_indent`. -/
def writeIndent (depth : ℕ) : List Char := List.replicate (2 * depth) ' '

/-- A key of an object up to its value. -/
def writeKey (key : String) : List Char := writeEscapedString key ++ [':', ' ']

/-- Strings on one line. -/
def writeStrings : List String → List Char
  | [] => []
  | [s] => writeEscapedString s
  | s :: s' :: l => writeEscapedString s ++ ',' :: ' ' :: writeStrings (s' :: l)

/-- Strings in brackets. -/
def writeArray (l : List String) : List Char := '[' :: (writeStrings l ++ [']'])

/-- One path with its count. -/
def JsonTrace.write (depth : ℕ) (t : JsonTrace) : List Char := List.flatten [
  writeIndent depth, ['{'], writeKey "path", writeArray t.path, [',', ' '], writeKey "count",
  printInt t.count ++ ['}']]

/-- The metadata of a loop and the paths of its iterations. -/
def JsonLoop.write (l : JsonLoop) : List Char := List.flatten [
  writeIndent 3, writeKey l.header, ['{', '\n'],
  writeIndent 4, writeKey "loop", ['{', '\n'],
  writeIndent 5, writeKey "header", writeEscapedString l.header, [',', '\n'],
  writeIndent 5, writeKey "exiting", writeArray l.exiting, [',', '\n'],
  writeIndent 5, writeKey "basic_blocks", writeArray l.basicBlocks, [',', '\n'],
  writeIndent 5, writeKey "latch", writeArray l.latch, [',', '\n'],
  writeIndent 5, writeKey "depth", printInt l.depth ++ ['\n'],
  writeIndent 4, ['}', ',', '\n'],
  writeIndent 4, writeKey "traces", ['[', '\n'],
  writeLines (JsonTrace.write 5) l.traces,
  writeIndent 4, [']', '\n'],
  writeIndent 3, ['}']]

/-- The entry of a function. -/
def JsonFunction.write (f : JsonFunction) : List Char := List.flatten [
  writeIndent 1, writeKey f.name, ['{', '\n'],
  writeIndent 2, writeKey "traces", ['[', '\n'],
  writeLines (JsonTrace.write 3) f.traces,
  writeIndent 2, [']', ',', '\n'],
  writeIndent 2, writeKey "loop_traces", ['{', '\n'],
  writeLines JsonLoop.write f.loopTraces,
  writeIndent 2, ['}', '\n'],
  writeIndent 1, ['}']]

/-- **`__trace_write_json`**, the text of the file. -/
def traceText (written : List JsonFunction) : List Char := List.flatten [
  ['{', '\n'], writeLines JsonFunction.write written, ['}', '\n']]

/-! ### What the text spells -/

def JsonTrace.value (t : JsonTrace) : Value :=
  .object [("path", .array (t.path.map .string)), ("count", .int t.count)]

def JsonLoop.member (l : JsonLoop) : String × Value :=
  (l.header, .object [
    ("loop", .object [("header", .string l.header), ("exiting", .array (l.exiting.map .string)),
      ("basic_blocks", .array (l.basicBlocks.map .string)),
      ("latch", .array (l.latch.map .string)), ("depth", .int l.depth)]),
    ("traces", .array (l.traces.map JsonTrace.value))])

def JsonFunction.member (f : JsonFunction) : String × Value :=
  (f.name, .object [("traces", .array (f.traces.map JsonTrace.value)),
    ("loop_traces", .object (f.loopTraces.map JsonLoop.member))])

/-- The value in the file. -/
def traceValue (written : List JsonFunction) : Value := .object (written.map JsonFunction.member)

/-- The names of a path can be written; the counts are `int`. -/
def JsonTrace.Writable (t : JsonTrace) : Prop :=
  (∀ n ∈ t.path, Trace.Writable n) ∧ -2 ^ 31 ≤ t.count ∧ t.count < 2 ^ 31

structure JsonLoop.Writable (l : JsonLoop) : Prop where
  header : Trace.Writable l.header
  exiting : ∀ n ∈ l.exiting, Trace.Writable n
  basicBlocks : ∀ n ∈ l.basicBlocks, Trace.Writable n
  latch : ∀ n ∈ l.latch, Trace.Writable n
  depth : l.depth < 2 ^ 31
  traces : ∀ t ∈ l.traces, t.Writable

structure JsonFunction.Writable (f : JsonFunction) : Prop where
  name : Trace.Writable f.name
  traces : ∀ t ∈ f.traces, t.Writable
  loopTraces : ∀ l ∈ f.loopTraces, l.Writable

theorem spells_writeIndent (depth : ℕ) : Spells (writeIndent depth) [] := by
  refine .marks ?_
  rw [writeIndent]
  induction 2 * depth with
  | zero => rfl
  | succ n ih => simpa [List.replicate_succ, marks, isSpace] using ih

theorem spells_writeKey {key : String} (hkey : Writable key) :
    Spells (writeKey key) [.string key, .colon] :=
  (spells_writeEscapedString hkey).append (.marks rfl)

theorem spells_writeStrings {l : List String} (hl : ∀ s ∈ l, Writable s) :
    Spells (writeStrings l) (separated ((l.map Value.string).map Value.tokens)) := by
  fun_induction writeStrings l with
  | case1 => exact fun _ _ h => h
  | case2 s => exact spells_writeEscapedString (hl s (by simp))
  | case3 s s' l ih =>
    rw [List.forall_mem_cons] at hl
    have hcomma : Spells [',', ' '] [.comma] := .marks rfl
    simpa [separated] using
      ((spells_writeEscapedString hl.1).append hcomma).append (ih hl.2)

theorem spells_writeArray {l : List String} (hl : ∀ s ∈ l, Writable s) :
    Spells (writeArray l) (Value.array (l.map .string)).tokens := by
  have hopen : Spells ['['] [.lbracket] := .marks rfl
  have hclose : Spells [']'] [.rbracket] := .marks rfl
  rw [tokens_array]
  exact hopen.append ((spells_writeStrings hl).append hclose)

theorem spells_write_trace (depth : ℕ) {t : JsonTrace} (ht : t.Writable) :
    Spells (t.write depth) t.value.tokens := by
  obtain ⟨hpath, hlo, hhi⟩ := ht
  have hcount : Spells (printInt t.count ++ ['}']) ((Value.int t.count).tokens ++ [.rbrace]) :=
    .int (by omega) (by omega) (by simp) (by rintro _ ⟨⟩; rfl) (.marks rfl)
  have hpieces : Spells (t.write depth) (List.flatten [
      [], [.lbrace], [.string "path", .colon], (Value.array (t.path.map .string)).tokens, [.comma],
      [.string "count", .colon], (Value.int t.count).tokens ++ [.rbrace]]) :=
    .flatten (.cons (spells_writeIndent depth) (.cons (.marks rfl)
      (.cons (spells_writeKey (.of_all rfl)) (.cons (spells_writeArray hpath) (.cons (.marks rfl)
      (.cons (spells_writeKey (.of_all rfl)) (.cons hcount .nil)))))))
  simpa [JsonTrace.value, tokens_object, memberTokens, separated] using hpieces

/-- The paths of a function or a loop, one on each line. -/
theorem spells_traces (depth : ℕ) {ts : List JsonTrace} (hts : ∀ t ∈ ts, t.Writable) :
    Spells (writeLines (JsonTrace.write depth) ts)
      (separated ((ts.map JsonTrace.value).map Value.tokens)) := by
  have hlines : Spells (writeLines (JsonTrace.write depth) ts)
      (separated (ts.map fun t => t.value.tokens)) :=
    spells_writeLines fun t ht _ _ _ h => spells_write_trace depth (hts t ht) h
  simpa [Function.comp_def] using hlines

theorem spells_write_loop {l : JsonLoop} (hl : l.Writable) :
    Spells l.write (memberTokens l.member) := by
  have hdepth : Spells (printInt l.depth ++ ['\n']) ((Value.int l.depth).tokens ++ []) := by
    have hlt := hl.depth
    exact .int (by omega) (by omega) (by simp) (by rintro _ ⟨⟩; rfl) (.marks rfl)
  have hpieces : Spells l.write (List.flatten [
      [], [.string l.header, .colon], [.lbrace],
      [], [.string "loop", .colon], [.lbrace],
      [], [.string "header", .colon], [.string l.header], [.comma],
      [], [.string "exiting", .colon], (Value.array (l.exiting.map .string)).tokens, [.comma],
      [], [.string "basic_blocks", .colon], (Value.array (l.basicBlocks.map .string)).tokens,
        [.comma],
      [], [.string "latch", .colon], (Value.array (l.latch.map .string)).tokens, [.comma],
      [], [.string "depth", .colon], (Value.int l.depth).tokens ++ [],
      [], [.rbrace, .comma],
      [], [.string "traces", .colon], [.lbracket],
      separated ((l.traces.map JsonTrace.value).map Value.tokens),
      [], [.rbracket],
      [], [.rbrace]]) :=
    .flatten
      (.cons (spells_writeIndent 3) (.cons (spells_writeKey hl.header) (.cons (.marks rfl)
      (.cons (spells_writeIndent 4) (.cons (spells_writeKey (.of_all rfl)) (.cons (.marks rfl)
      (.cons (spells_writeIndent 5) (.cons (spells_writeKey (.of_all rfl))
        (.cons (spells_writeEscapedString hl.header) (.cons (.marks rfl)
      (.cons (spells_writeIndent 5) (.cons (spells_writeKey (.of_all rfl))
        (.cons (spells_writeArray hl.exiting) (.cons (.marks rfl)
      (.cons (spells_writeIndent 5) (.cons (spells_writeKey (.of_all rfl))
        (.cons (spells_writeArray hl.basicBlocks) (.cons (.marks rfl)
      (.cons (spells_writeIndent 5) (.cons (spells_writeKey (.of_all rfl))
        (.cons (spells_writeArray hl.latch) (.cons (.marks rfl)
      (.cons (spells_writeIndent 5) (.cons (spells_writeKey (.of_all rfl)) (.cons hdepth
      (.cons (spells_writeIndent 4) (.cons (.marks rfl)
      (.cons (spells_writeIndent 4) (.cons (spells_writeKey (.of_all rfl)) (.cons (.marks rfl)
      (.cons (spells_traces 5 hl.traces)
      (.cons (spells_writeIndent 4) (.cons (.marks rfl)
      (.cons (spells_writeIndent 3) (.cons (.marks rfl)
      .nil)))))))))))))))))))))))))))))))))))
  simpa [JsonLoop.member, tokens_object, tokens_array, memberTokens, separated] using hpieces

theorem spells_write_function {f : JsonFunction} (hf : f.Writable) :
    Spells f.write (memberTokens f.member) := by
  have hloops : Spells (writeLines JsonLoop.write f.loopTraces)
      (separated (f.loopTraces.map fun l => memberTokens l.member)) :=
    spells_writeLines fun l hl _ _ _ h => spells_write_loop (hf.loopTraces l hl) h
  have hpieces : Spells f.write (List.flatten [
      [], [.string f.name, .colon], [.lbrace],
      [], [.string "traces", .colon], [.lbracket],
      separated ((f.traces.map JsonTrace.value).map Value.tokens),
      [], [.rbracket, .comma],
      [], [.string "loop_traces", .colon], [.lbrace],
      separated (f.loopTraces.map fun l => memberTokens l.member),
      [], [.rbrace],
      [], [.rbrace]]) :=
    .flatten
      (.cons (spells_writeIndent 1) (.cons (spells_writeKey hf.name) (.cons (.marks rfl)
      (.cons (spells_writeIndent 2) (.cons (spells_writeKey (.of_all rfl)) (.cons (.marks rfl)
      (.cons (spells_traces 3 hf.traces)
      (.cons (spells_writeIndent 2) (.cons (.marks rfl)
      (.cons (spells_writeIndent 2) (.cons (spells_writeKey (.of_all rfl)) (.cons (.marks rfl)
      (.cons hloops
      (.cons (spells_writeIndent 2) (.cons (.marks rfl)
      (.cons (spells_writeIndent 1) (.cons (.marks rfl)
      .nil)))))))))))))))))
  simpa [JsonFunction.member, tokens_object, tokens_array, memberTokens, separated,
    Function.comp_def] using hpieces

/-- **The trace file spells the entries of the functions.** -/
theorem denotes_traceText {written : List JsonFunction} (hw : ∀ f ∈ written, f.Writable) :
    Denotes (traceText written) (traceValue written) := by
  have hfunctions : Spells (writeLines JsonFunction.write written)
      (separated (written.map fun f => memberTokens f.member)) :=
    spells_writeLines fun f hf _ _ _ h => spells_write_function (hw f hf) h
  have hpieces : Spells (traceText written) (List.flatten [
      [.lbrace], separated (written.map fun f => memberTokens f.member), [.rbrace]]) :=
    .flatten (.cons (.marks rfl) (.cons hfunctions (.cons (.marks rfl) .nil)))
  simpa [Denotes, traceValue, tokens_object, Function.comp_def] using hpieces .nil

/-! ### Any run -/

/-- The saved paths of a function, and of each loop, are different. -/
structure FuncState.Distinct (fs : FuncState) : Prop where
  funcTraces : (fs.funcTraces.map UniqueTrace.bbs).Nodup
  loopIds : (fs.loopResults.map LoopResult.loopId).Nodup
  loopTraces : ∀ lr ∈ fs.loopResults, (lr.traces.map UniqueTrace.bbs).Nodup

theorem forall_mem_modify {α : Type} {P : α → Prop} {f : α → α} (hf : ∀ a, P a → P (f a))
    {l : List α} (h : ∀ a ∈ l, P a) (i : ℕ) : ∀ a ∈ l.modify i f, P a := by
  intro a ha
  obtain ⟨j, hj, rfl⟩ := List.mem_iff_getElem.1 ha
  rw [List.getElem_modify]
  split_ifs
  · exact hf _ (h _ (List.getElem_mem _))
  · exact h _ (List.getElem_mem _)

/-- A slot for a loop holds its id. -/
theorem FuncState.Distinct.getLoopResult {fs : FuncState} (h : fs.Distinct) (loopId : ℕ) :
    (fs.getLoopResult loopId).1.Distinct := by
  rw [FuncState.getLoopResult]
  cases hfind : fs.loopResults.findIdx? fun lr => lr.loopId = loopId with
  | some i => exact h
  | none =>
    rw [List.findIdx?_eq_none_iff] at hfind
    have hnew : loopId ∉ fs.loopResults.map LoopResult.loopId := by
      rintro hmem
      obtain ⟨lr, hlr, rfl⟩ := List.mem_map.1 hmem
      simpa using hfind lr hlr
    dsimp only
    split_ifs
    · exact h
    · refine ⟨h.funcTraces, ?_, fun lr hlr => ?_⟩
      · rw [List.map_append]
        exact h.loopIds.append (List.nodup_singleton _) (by simpa using hnew)
      · rcases List.mem_append.1 hlr with hlr | hlr
        · exact h.loopTraces lr hlr
        · obtain rfl := List.mem_singleton.1 hlr
          exact List.nodup_nil

theorem FuncState.Distinct.iterEnd {fs : FuncState} (h : fs.Distinct) (loopId : ℕ) :
    (FuncState.iterEnd loopId fs).Distinct := by
  rw [FuncState.iterEnd]
  cases fs.loopStack with
  | nil => exact h
  | cons lc rest =>
    have hget := h.getLoopResult loopId
    cases hresult : fs.getLoopResult loopId with
    | mk fs' result =>
      rw [hresult] at hget
      cases result with
      | none => exact ⟨hget.funcTraces, hget.loopIds, hget.loopTraces⟩
      | some i =>
        refine ⟨hget.funcTraces, ?_, forall_mem_modify (fun lr hlr => nodup_saveTrace hlr lc.bbs)
          hget.loopTraces i⟩
        have hids : (fs'.loopResults.modify i fun lr =>
            { lr with traces := saveTrace lr.traces lc.bbs }).map LoopResult.loopId =
              fs'.loopResults.map LoopResult.loopId := by
          refine List.ext_getElem (by simp) fun j hj _ => ?_
          rw [List.getElem_map, List.getElem_map, List.getElem_modify]
          split_ifs <;> rfl
        exact hids ▸ hget.loopIds

/-- An operation on a function keeps its metadata and what is different in its tables. -/
def FuncState.Keeps (f : FuncState → FuncState) : Prop :=
  ∀ fs, (f fs).info = fs.info ∧ (fs.Distinct → (f fs).Distinct)

theorem FuncState.keeps_appendBb (bb : ℕ) : FuncState.Keeps fun fs =>
    fs.appendBbToActiveContext bb := by
  intro fs
  refine ⟨fs.info_appendBb bb, fun h => ?_⟩
  dsimp only
  rw [FuncState.appendBbToActiveContext]
  split <;> split_ifs <;> exact ⟨h.funcTraces, h.loopIds, h.loopTraces⟩

theorem FuncState.keeps_appendPath (bbs : List ℕ) : FuncState.Keeps fun fs =>
    fs.appendPathToActiveContext bbs := by
  refine fun fs => ⟨fs.info_appendPath bbs, ?_⟩
  induction bbs generalizing fs with
  | nil => exact id
  | cons bb bbs ih => exact fun h => ih _ ((keeps_appendBb bb fs).2 h)

theorem FuncState.keeps_loopExit : FuncState.Keeps FuncState.loopExit := by
  refine fun fs => ⟨fs.info_loopExit, fun h => ?_⟩
  rw [FuncState.loopExit]
  split
  · exact h
  · rename_i lc rest _
    exact (keeps_appendPath lc.bbs { fs with loopStack := rest }).2
      ⟨h.funcTraces, h.loopIds, h.loopTraces⟩

theorem FuncState.keeps_close : FuncState.Keeps FuncState.close := fun _ =>
  ⟨rfl, fun h => ⟨nodup_saveTrace h.funcTraces _, h.loopIds, h.loopTraces⟩⟩

/-- What holds of the functions after any run: their metadata were given at an entry, and the saved
paths are different. -/
def TraceState.Tables (S : TraceState) (events : List TraceEvent) : Prop :=
  ∀ fs ∈ S.funcStates, .funcEnter fs.info ∈ events ∧ fs.Distinct

theorem TraceState.Tables.onCurrent {S : TraceState} {events : List TraceEvent}
    (h : S.Tables events) {f : FuncState → FuncState} (hf : FuncState.Keeps f) :
    (S.onCurrent f).Tables events := by
  rw [TraceState.onCurrent]
  split
  · exact h
  · refine forall_mem_modify (fun fs hfs => ?_) h _
    obtain ⟨hinfo, hdistinct⟩ := hf fs
    exact ⟨hinfo.symm ▸ hfs.1, hdistinct hfs.2⟩

theorem TraceState.Tables.mono {S : TraceState} {events events' : List TraceEvent}
    (h : S.Tables events) (hsub : ∀ e ∈ events, e ∈ events') : S.Tables events' :=
  fun fs hfs => ⟨hsub _ (h fs hfs).1, (h fs hfs).2⟩

/-- One call of the runtime. -/
theorem TraceState.Tables.step {S : TraceState} {events : List TraceEvent} (h : S.Tables events)
    (e : TraceEvent) : (S.step e).Tables (events ++ [e]) := by
  have h' := h.mono fun e' he' => List.mem_append_left [e] he'
  cases e with
  | funcEnter info =>
    rw [TraceState.step, traceFuncEnter]
    by_cases hfull : S.funcStates.length ≥ maxFunctions
    · rw [if_pos hfull]
      exact h'
    · rw [if_neg hfull]
      refine List.forall_mem_append.2 ⟨h', List.forall_mem_singleton.2
        ⟨List.mem_append_right _ (List.mem_singleton.2 rfl), ?_⟩⟩
      exact ⟨List.nodup_nil, List.nodup_nil, fun _ hlr => absurd hlr List.not_mem_nil⟩
  | bb bb => exact h'.onCurrent (FuncState.keeps_appendBb bb)
  | loopEnter loopId headerBb =>
    refine h'.onCurrent fun fs => ?_
    by_cases hdepth : fs.loopStack.length ≥ maxLoopDepth
    · rw [if_pos hdepth]
      exact ⟨rfl, id⟩
    · rw [if_neg hdepth]
      exact ⟨rfl, fun h => ⟨h.funcTraces, h.loopIds, h.loopTraces⟩⟩
  | loopIterEnd loopId =>
    exact h'.onCurrent fun fs => ⟨FuncState.info_iterEnd loopId fs, fun h => h.iterEnd loopId⟩
  | loopExit loopId => exact h'.onCurrent FuncState.keeps_loopExit
  | funcExit =>
    rw [TraceState.step, traceFuncExit]
    split
    · exact h'
    · exact h'.onCurrent FuncState.keeps_close

/-- **Any run** of the runtime leaves different paths in its tables. -/
theorem tables_run (events : List TraceEvent) : (TraceState.init.run events).Tables events := by
  induction events using List.reverseRecOn with
  | nil => exact fun _ hfs => absurd hfs List.not_mem_nil
  | append_singleton events e ih =>
    rw [TraceState.run, List.foldl_append]
    exact ih.step e

/-! ### What is written -/

/-- The names in the metadata of a function can be written, and the depths are `int`. -/
structure FuncTraceMeta.Writable (info : FuncTraceMeta) : Prop where
  funcName : Trace.Writable info.funcName
  bbNames : ∀ n ∈ info.bbNames, Trace.Writable n
  loops : ∀ loop ∈ info.loops, Trace.Writable loop.headerName ∧ Trace.Writable loop.latchName ∧
    (∀ n ∈ loop.memberNames, Trace.Writable n) ∧ (∀ n ∈ loop.exitingNames, Trace.Writable n) ∧
    loop.depth < 2 ^ 31

theorem FuncTraceMeta.Writable.bbName {info : FuncTraceMeta} (h : info.Writable) (idx : ℕ) :
    Trace.Writable (info.bbName idx) := by
  rw [FuncTraceMeta.bbName]
  by_cases hidx : idx < info.bbNames.length
  · rw [List.getD_eq_getElem _ _ hidx]
    exact h.bbNames _ (List.getElem_mem _)
  · rw [List.getD_eq_default _ _ (by omega)]
    intro c hc
    rw [String.toList_append, List.mem_append] at hc
    rcases hc with hc | hc
    · exact Writable.of_all (s := "bb_") rfl c hc
    · rw [Nat.toString_eq_repr, Nat.toList_repr] at hc
      have hdigit := Char.isDigit_iff_toNat.1 (Nat.isDigit_of_mem_toDigits (by decide) le_rfl hc)
      have hlo : 48 ≤ c.toNat := hdigit.1
      simp only [isWritable, Bool.or_eq_true, decide_eq_true_eq]
      omega

theorem FuncTraceMeta.Writable.writeTraces {info : FuncTraceMeta} (h : info.Writable)
    (ta : TraceArray) : ∀ t ∈ info.writeTraces ta, t.Writable := by
  intro t ht
  obtain ⟨u, -, rfl⟩ := List.mem_map.1 ht
  refine ⟨fun n hn => ?_, BitVec.le_toInt _, BitVec.toInt_lt⟩
  obtain ⟨idx, -, rfl⟩ := List.mem_map.1 hn
  exact h.bbName idx

theorem FuncTraceMeta.Writable.writeLoop {info : FuncTraceMeta} (h : info.Writable)
    (lr : LoopResult) : (info.writeLoop lr).Writable := by
  rw [FuncTraceMeta.writeLoop]
  cases hloop : info.loops[lr.loopId]? with
  | some loop =>
    obtain ⟨hheader, hlatch, hmembers, hexiting, hdepth⟩ :=
      h.loops loop (List.mem_of_getElem? hloop)
    exact ⟨hheader, hexiting, hmembers, List.forall_mem_singleton.2 hlatch, hdepth,
      h.writeTraces lr.traces⟩
  | none =>
    exact ⟨.of_all (s := "unknown") rfl, by simp, by simp, by simp, by norm_num,
      h.writeTraces lr.traces⟩

/-- **After any run** the file can be written. -/
theorem writable_run {events : List TraceEvent}
    (h : ∀ info, .funcEnter info ∈ events → info.Writable) :
    ∀ f ∈ traceWriteJson (TraceState.init.run events), f.Writable := by
  intro f hf
  obtain ⟨fs, hfs, rfl⟩ := List.mem_map.1 hf
  have hinfo := h fs.info (tables_run events fs hfs).1
  refine ⟨hinfo.funcName, hinfo.writeTraces _, fun l hl => ?_⟩
  obtain ⟨lr, -, rfl⟩ := List.mem_map.1 hl
  exact hinfo.writeLoop lr

end Bao.Trace
