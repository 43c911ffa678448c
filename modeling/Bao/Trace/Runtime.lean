import Mathlib

/-!
# The trace runtime

`schematic_trace_runtime.c` is linked with instrumented programs. `TraceCollectorPass` inserts a
call of it at every function entry and return, at every basic block, and where loops are entered,
left and taken around once more. The runtime keeps one buffer for the function and one for each open
loop, and at program exit it writes the different paths with their counts as JSON.

The tables of the runtime have fixed sizes. A call that finds no room returns without doing
anything, and a buffer that is full drops what is appended to it.

Block indices are natural numbers, and a buffer is the list of its used part. Messages on `stderr`
are left out. The counts are 32 bit integers.
-/

namespace Bao.Trace

/-! ### Metadata and configuration -/

/-- The metadata of a loop: one entry of each of the `loop_` arrays of `FuncTraceMeta`. -/
structure LoopTraceMeta where
  headerName : String
  latchName : String
  depth : ℕ
  memberNames : List String
  exitingNames : List String
  deriving DecidableEq

/-- `FuncTraceMeta`; the counts are the lengths of the lists. -/
structure FuncTraceMeta where
  funcName : String
  bbNames : List String
  loops : List LoopTraceMeta
  deriving DecidableEq

/-- The capacity of a path buffer. -/
def iterBufCap : ℕ := 512

def maxLoopDepth : ℕ := 8

def maxFunctions : ℕ := 32

def maxLoopsPerFunc : ℕ := 256

def maxCallDepth : ℕ := 16

/-! ### Data structures -/

/-- A path and how often it was saved. -/
structure UniqueTrace where
  bbs : List ℕ
  count : BitVec 32
  deriving DecidableEq

/-- `TraceArray`; it grows as needed. -/
abbrev TraceArray := List UniqueTrace

/-- An open loop with the buffer of its current iteration. -/
structure LoopCtx where
  loopId : ℕ
  bbs : List ℕ
  deriving DecidableEq

/-- The iteration paths of a loop. -/
structure LoopResult where
  loopId : ℕ
  traces : TraceArray
  deriving DecidableEq

/-- The state of one call of a function; the innermost open loop comes first. -/
structure FuncState where
  info : FuncTraceMeta
  funcTraceBbs : List ℕ
  loopStack : List LoopCtx
  funcTraces : TraceArray
  loopResults : List LoopResult
  deriving DecidableEq

/-- The global state: the used slots of `g_func_states`, the slot of the current function, and the
call stack with the latest caller first. -/
structure TraceState where
  funcStates : List FuncState
  current : Option ℕ
  callStack : List ℕ
  deriving DecidableEq

/-- The state before the first event. -/
def TraceState.init : TraceState := ⟨[], none, []⟩

/-! ### Paths and results -/

def FuncState.appendBbToActiveContext (fs : FuncState) (bb : ℕ) : FuncState :=
  match fs.loopStack with
  | lc :: rest =>
    if lc.bbs.length < iterBufCap then
      { fs with loopStack := { lc with bbs := lc.bbs ++ [bb] } :: rest }
    else fs
  | [] =>
    if fs.funcTraceBbs.length < iterBufCap then
      { fs with funcTraceBbs := fs.funcTraceBbs ++ [bb] }
    else fs

def FuncState.appendPathToActiveContext (fs : FuncState) (bbs : List ℕ) : FuncState :=
  bbs.foldl appendBbToActiveContext fs

/-- FNV-1a on the block indices. -/
def fnv1aHash (data : List ℕ) : BitVec 32 :=
  data.foldl (fun h d => (h ^^^ BitVec.ofNat 32 d) * 16777619#32) 2166136261#32

/-- The search of `save_trace`: the first entry with the same length, hash and content is counted
once more, otherwise there is a new entry. -/
def TraceArray.count (bbs : List ℕ) : TraceArray → TraceArray
  | [] => [⟨bbs, 1⟩]
  | t :: ts =>
    if t.bbs.length = bbs.length ∧ fnv1aHash t.bbs = fnv1aHash bbs ∧ t.bbs = bbs then
      { t with count := t.count + 1 } :: ts
    else t :: TraceArray.count bbs ts

def saveTrace (ta : TraceArray) (bbs : List ℕ) : TraceArray :=
  if bbs.length = 0 then ta else ta.count bbs

/-- Finds or creates the slot of a loop; there is none if the table is full. -/
def FuncState.getLoopResult (fs : FuncState) (loopId : ℕ) : FuncState × Option ℕ :=
  match fs.loopResults.findIdx? (fun lr => lr.loopId = loopId) with
  | some i => (fs, some i)
  | none =>
    if fs.loopResults.length ≥ maxLoopsPerFunc then (fs, none)
    else ({ fs with loopResults := fs.loopResults ++ [⟨loopId, []⟩] }, some fs.loopResults.length)

/-! ### Runtime API -/

/-- The fields `__trace_func_enter` sets in a fresh slot. -/
def FuncState.fresh (info : FuncTraceMeta) : FuncState := ⟨info, [], [], [], []⟩

/-- Applies an operation to the current function, if there is one. -/
def TraceState.onCurrent (S : TraceState) (f : FuncState → FuncState) : TraceState :=
  match S.current with
  | none => S
  | some i => { S with funcStates := S.funcStates.modify i f }

def traceFuncEnter (S : TraceState) (info : FuncTraceMeta) : TraceState :=
  if S.funcStates.length ≥ maxFunctions then S
  else
    { funcStates := S.funcStates ++ [.fresh info]
      current := some S.funcStates.length
      callStack :=
        match S.current with
        | some caller =>
          if S.callStack.length < maxCallDepth then caller :: S.callStack else S.callStack
        | none => S.callStack }

def traceBb (S : TraceState) (bb : ℕ) : TraceState :=
  S.onCurrent fun fs => fs.appendBbToActiveContext bb

def traceLoopEnter (S : TraceState) (loopId : ℕ) : TraceState :=
  S.onCurrent fun fs =>
    if fs.loopStack.length ≥ maxLoopDepth then fs
    else { fs with loopStack := ⟨loopId, []⟩ :: fs.loopStack }

/-- Saves the iteration of the innermost open loop under a loop id, and starts a new one. -/
def FuncState.iterEnd (loopId : ℕ) (fs : FuncState) : FuncState :=
  match fs.loopStack with
  | [] => fs
  | lc :: rest =>
    let (fs', result) := fs.getLoopResult loopId
    let results := match result with
      | some i =>
        fs'.loopResults.modify i fun lr => { lr with traces := saveTrace lr.traces lc.bbs }
      | none => fs'.loopResults
    { fs' with loopResults := results, loopStack := { lc with bbs := [] } :: rest }

def traceLoopIterEnd (S : TraceState) (loopId : ℕ) : TraceState := S.onCurrent (.iterEnd loopId)

/-- Leaves the innermost open loop; what it has of an unfinished iteration goes to the context
around it. -/
def FuncState.loopExit (fs : FuncState) : FuncState :=
  match fs.loopStack with
  | [] => fs
  | lc :: rest => { fs with loopStack := rest }.appendPathToActiveContext lc.bbs

def traceLoopExit (S : TraceState) : TraceState := S.onCurrent .loopExit

/-- Saves the path of the function and resets it. -/
def FuncState.close (fs : FuncState) : FuncState :=
  { fs with
    funcTraces := saveTrace fs.funcTraces fs.funcTraceBbs
    funcTraceBbs := []
    loopStack := [] }

def traceFuncExit (S : TraceState) : TraceState :=
  match S.current with
  | none => S
  | some _ =>
    { funcStates := (S.onCurrent .close).funcStates
      current := S.callStack.head?
      callStack := S.callStack.tail }

/-- The calls of the runtime. -/
inductive TraceEvent
  | funcEnter (info : FuncTraceMeta)
  | bb (bb : ℕ)
  | loopEnter (loopId headerBb : ℕ)
  | loopIterEnd (loopId : ℕ)
  | loopExit (loopId : ℕ)
  | funcExit

def TraceState.step (S : TraceState) : TraceEvent → TraceState
  | .funcEnter info => traceFuncEnter S info
  | .bb bb => traceBb S bb
  | .loopEnter loopId _ => traceLoopEnter S loopId
  | .loopIterEnd loopId => traceLoopIterEnd S loopId
  | .loopExit _ => traceLoopExit S
  | .funcExit => traceFuncExit S

/-- A sequence of calls. -/
def TraceState.run (S : TraceState) (events : List TraceEvent) : TraceState := events.foldl step S

/-! ### The JSON writer -/

/-- A path with its count. -/
structure JsonTrace where
  path : List String
  count : ℤ
  deriving DecidableEq

/-- An entry of `loop_traces`. -/
structure JsonLoop where
  header : String
  exiting : List String
  basicBlocks : List String
  latch : List String
  depth : ℕ
  traces : List JsonTrace
  deriving DecidableEq

/-- The entry of a function. -/
structure JsonFunction where
  name : String
  traces : List JsonTrace
  loopTraces : List JsonLoop
  deriving DecidableEq

def FuncTraceMeta.bbName (info : FuncTraceMeta) (idx : ℕ) : String :=
  info.bbNames.getD idx ("bb_" ++ toString idx)

def FuncTraceMeta.writeTraces (info : FuncTraceMeta) (ta : TraceArray) : List JsonTrace :=
  ta.map fun t => ⟨t.bbs.map info.bbName, t.count.toInt⟩

def FuncTraceMeta.writeLoop (info : FuncTraceMeta) (lr : LoopResult) : JsonLoop :=
  match info.loops[lr.loopId]? with
  | some loop =>
    ⟨loop.headerName, loop.exitingNames, loop.memberNames, [loop.latchName], loop.depth,
      info.writeTraces lr.traces⟩
  | none => ⟨"unknown", [], [], [], 0, info.writeTraces lr.traces⟩

def FuncState.writeFunction (fs : FuncState) : JsonFunction :=
  ⟨fs.info.funcName, fs.info.writeTraces fs.funcTraces, fs.loopResults.map fs.info.writeLoop⟩

/-- `__trace_write_json`: one entry for each used slot. -/
def traceWriteJson (S : TraceState) : List JsonFunction := S.funcStates.map FuncState.writeFunction

/-! ### What the calls leave unchanged -/

/-- Counting a path adds it if it is new. -/
theorem map_bbs_count (ta : TraceArray) (bbs : List ℕ) :
    (ta.count bbs).map UniqueTrace.bbs =
      if bbs ∈ ta.map UniqueTrace.bbs then ta.map UniqueTrace.bbs
      else ta.map UniqueTrace.bbs ++ [bbs] := by
  induction ta with
  | nil => rfl
  | cons t ta ih =>
    rw [TraceArray.count]
    by_cases h : t.bbs = bbs
    · simp [h]
    · have hne : bbs ≠ t.bbs := Ne.symm h
      rw [if_neg fun hall => h hall.2.2, List.map_cons, ih, List.map_cons]
      by_cases hmem : bbs ∈ ta.map UniqueTrace.bbs
      · rw [if_pos hmem, if_pos (List.mem_cons_of_mem _ hmem)]
      · rw [if_neg hmem, if_neg (by simpa [hne] using hmem), List.cons_append]

theorem nodup_saveTrace {ta : TraceArray} (h : (ta.map UniqueTrace.bbs).Nodup) (bbs : List ℕ) :
    ((saveTrace ta bbs).map UniqueTrace.bbs).Nodup := by
  rw [saveTrace]
  split_ifs
  · exact h
  · rw [map_bbs_count]
    split_ifs with hmem
    · exact h
    · exact h.append (List.nodup_singleton bbs) (by simpa using hmem)

@[simp] theorem FuncState.info_appendBb (fs : FuncState) (bb : ℕ) :
    (fs.appendBbToActiveContext bb).info = fs.info := by
  rw [FuncState.appendBbToActiveContext]
  split <;> split_ifs <;> rfl

@[simp] theorem FuncState.info_appendPath (fs : FuncState) (bbs : List ℕ) :
    (fs.appendPathToActiveContext bbs).info = fs.info := by
  induction bbs generalizing fs with
  | nil => rfl
  | cons bb bbs ih => exact (ih _).trans (fs.info_appendBb bb)

@[simp] theorem FuncState.info_getLoopResult (fs : FuncState) (loopId : ℕ) :
    (fs.getLoopResult loopId).1.info = fs.info := by
  rw [FuncState.getLoopResult]
  split
  · rfl
  · split_ifs <;> rfl

@[simp] theorem FuncState.info_iterEnd (loopId : ℕ) (fs : FuncState) :
    (fs.iterEnd loopId).info = fs.info := by
  rw [FuncState.iterEnd]
  split
  · rfl
  · exact fs.info_getLoopResult loopId

@[simp] theorem FuncState.info_loopExit (fs : FuncState) : fs.loopExit.info = fs.info := by
  rw [FuncState.loopExit]
  split
  · rfl
  · exact FuncState.info_appendPath _ _

end Bao.Trace
