import Mathlib
import Bao.Text.Json

/-!
# Block frequencies

`BBFreqCollectorPass` gives every function an array of counters, one for each basic block, and lets
the entry block register the function. At each return of `main` the runtime writes the counters of
the registered functions to `bb_freq.json`, and `BBFreqLoader` reads them back for one function of
the module that is compiled with them.

* **The runtime** counts modulo `2 ^ 64` (`counters_run`) and keeps the functions entered first
  (`registrations_run`).
* **The file** spells the counters as JSON (`denotes_dump`).
* **The loader** finds them if every block of the function had its name before the instrumentation
  (`load_run`).
-/

namespace Bao.Trace

open Text Json

/-! ### Writing JSON -/

/-- A character in a JSON string. -/
def escapeChar (c : Char) : List Char :=
  if c = '"' then ['\\', '"']
  else if c = '\\' then ['\\', '\\']
  else if c = '\n' then ['\\', 'n']
  else if c = '\t' then ['\\', 't']
  else [c]

/-- `write_escaped_string`. -/
def writeEscapedString (s : String) : List Char := '"' :: (s.toList.flatMap escapeChar ++ ['"'])

/-- A list with one item a line: a comma behind all of them but the last. -/
def writeLines {α : Type} (write : α → List Char) : List α → List Char
  | [] => []
  | [a] => write a ++ ['\n']
  | a :: b :: l => write a ++ ',' :: '\n' :: writeLines write (b :: l)

/-! ### The instrumented functions -/

/-- `ensureBBNames`: a block without a name is named after its number. -/
def ensureBBNames (names : List (Option String)) : List String :=
  names.zipIdx.map fun b => b.1.getD ("bb." ++ toString b.2)

/-- A function with the names of its basic blocks, the entry block first. -/
structure BBFunction where
  name : String
  blocks : List (Option String)
  distinct : (ensureBBNames blocks).Nodup
  deriving DecidableEq

def BBFunction.bbNames (F : BBFunction) : List String := ensureBBNames F.blocks

/-! ### The runtime -/

def maxFreqFunctions : ℕ := 64

/-- `BBFreqRegistration`; `counters` is the function whose array of counters it points to. -/
structure BBFreqRegistration where
  funcName : String
  bbNames : List String
  counters : String
  deriving DecidableEq

/-- The registrations, the arrays of counters, and the file when it was written. -/
structure BBFreqState where
  registrations : List BBFreqRegistration
  counters : String → ℕ → BitVec 64
  file : Option (List Char)

/-- The state before the program starts: the arrays are `zeroinitializer`. -/
def BBFreqState.init : BBFreqState := ⟨[], fun _ _ => 0, none⟩

/-- **`__bb_freq_register`**. -/
def bbFreqRegister (registrations : List BBFreqRegistration) (reg : BBFreqRegistration) :
    List BBFreqRegistration :=
  if registrations.length ≥ maxFreqFunctions then registrations
  else if registrations.any fun r => r.funcName = reg.funcName then registrations
  else registrations ++ [reg]

/-- The registration the pass puts into the entry block. -/
def BBFunction.registration (F : BBFunction) : BBFreqRegistration := ⟨F.name, F.bbNames, F.name⟩

/-- A line of the file: a block and its counter. -/
def writeCount (b : String × BitVec 64) : List Char :=
  ' ' :: ' ' :: ' ' :: ' ' :: (writeEscapedString b.1 ++ ':' :: ' ' :: printInt b.2.toInt)

/-- The names of a registration with their counters. -/
def BBFreqState.counts (S : BBFreqState) (reg : BBFreqRegistration) : List (String × BitVec 64) :=
  reg.bbNames.zipIdx.map fun b => (b.1, S.counters reg.counters b.2)

def BBFreqState.writeRegistration (S : BBFreqState) (reg : BBFreqRegistration) : List Char :=
  ' ' :: ' ' :: (writeEscapedString reg.funcName ++ ':' :: ' ' :: '{' :: '\n' ::
    (writeLines writeCount (S.counts reg) ++ [' ', ' ', '}']))

/-- **`__bb_freq_dump`**, the text it writes. -/
def BBFreqState.dump (S : BBFreqState) : List Char :=
  '{' :: '\n' :: (writeLines S.writeRegistration S.registrations ++ ['}', '\n'])

/-- What the instrumented program does to the runtime. -/
inductive FreqEvent
  | block (F : BBFunction) (bb : ℕ)
  | mainReturn
  deriving DecidableEq

/-- A block counts its execution, the entry block registers the function before. -/
def BBFreqState.step (S : BBFreqState) : FreqEvent → BBFreqState
  | .block F bb =>
    { S with
      registrations :=
        if bb = 0 then bbFreqRegister S.registrations F.registration else S.registrations
      counters := Function.update S.counters F.name
        (Function.update (S.counters F.name) bb (S.counters F.name bb + 1)) }
  | .mainReturn => { S with file := some S.dump }

def BBFreqState.run (S : BBFreqState) (events : List FreqEvent) : BBFreqState := events.foldl step S

/-! ### The loader -/

/-- The counts of the blocks of a function. -/
structure BBFreqLoader where
  counts : List (ℕ × BitVec 64)

def BBFreqLoader.getBlockCount (loader : BBFreqLoader) (bb : ℕ) : Option (BitVec 64) :=
  loader.counts.lookup bb

/-- `get<uint64_t>` of a number; the conversion of a `double` is a parameter. -/
def getUInt64 (castDouble : String → BitVec 64) : Value → Option (BitVec 64)
  | .unsigned n => some (.ofNat 64 n)
  | .integer z => some (.ofInt 64 z)
  | .float lexeme => some (castDouble lexeme)
  | _ => none

/-- The block and the count of one member of the object of a function. -/
def BBFunction.memberCount (castDouble : String → BitVec 64) (F : BBFunction)
    (member : String × Value) : Option (ℕ × BitVec 64) := do
  let count ← getUInt64 castDouble member.2
  let bb ← F.blocks.idxOf? (some member.1)
  some (bb, count)

/-- One turn of the loop over the members. -/
def BBFreqLoader.loadBlock (castDouble : String → BitVec 64) (F : BBFunction)
    (loader : BBFreqLoader) (member : String × Value) : Option BBFreqLoader :=
  (F.memberCount castDouble member).map fun entry => ⟨entry :: loader.counts⟩

/-- **`BBFreqLoader::load`**. -/
def BBFreqLoader.load (parse : List Char → Option Value) (castDouble : String → BitVec 64)
    (file : Option (List Char)) (F : BBFunction) : Option BBFreqLoader := do
  let text ← file
  let root ← parse text
  match root.get? F.name with
  | some (.object members) =>
    (Value.object members).items.foldlM (loadBlock castDouble F) ⟨[]⟩
  | _ => none

/-! ### What is written -/

/-- A character the runtime writes as JSON wants it: all but most control characters. -/
def isWritable (c : Char) : Bool := 0x20 ≤ c.toNat || c = '\n' || c = '\t'

/-- The strings the runtime can write into a file that JSON accepts. -/
def Writable (s : String) : Prop := ∀ c ∈ s.toList, isWritable c = true

theorem Writable.of_all {s : String} (h : s.toList.all isWritable = true) : Writable s :=
  List.all_eq_true.1 h

theorem quoted_flatMap_escapeChar {s : List Char}
    (hs : ∀ c ∈ s, isWritable c = true) : Quoted (s.flatMap escapeChar) s := by
  induction s with
  | nil => exact .nil
  | cons c s ih =>
    rw [List.forall_mem_cons] at hs
    rw [List.flatMap_cons, escapeChar]
    split_ifs with hquote hback hnewline htab
    · exact .escape (by rw [hquote]; rfl) (ih hs.2)
    · exact .escape (by rw [hback]; rfl) (ih hs.2)
    · exact .escape (by rw [hnewline]; rfl) (ih hs.2)
    · exact .escape (by rw [htab]; rfl) (ih hs.2)
    · refine .plain ?_ (ih hs.2)
      simpa [isPlain, isWritable, hquote, hback, hnewline, htab] using hs.1

theorem spells_writeEscapedString {s : String} (hs : Writable s) :
    Spells (writeEscapedString s) [.string s] := by
  intro text rest h
  have hlexes := Lexes.string (quoted_flatMap_escapeChar hs) h
  rw [String.ofList_toList] at hlexes
  simpa [writeEscapedString] using hlexes

/-- One line for each item. -/
theorem spells_writeLines {α : Type} {write : α → List Char} {toks : α → List Token} {l : List α}
    (hw : ∀ a ∈ l, ∀ ⦃text rest⦄, EndsNumber text → Lexes text rest →
      Lexes (write a ++ text) (toks a ++ rest)) :
    Spells (writeLines write l) (separated (l.map toks)) := by
  intro text rest h
  fun_induction writeLines write l with
  | case1 => exact h
  | case2 a =>
    rw [List.append_assoc]
    exact hw a (by simp) (by rintro _ ⟨⟩; rfl) (.space rfl h)
  | case3 a b l ih =>
    rw [List.forall_mem_cons] at hw
    rw [List.append_assoc, List.map_cons, List.map_cons, separated, List.append_assoc]
    exact hw.1 (by rintro _ ⟨⟩; rfl) (.punct rfl (.space rfl (ih hw.2)))

/-- A counter as a member of the object of its function. -/
def countMember (b : String × BitVec 64) : String × Value := (b.1, .int b.2.toInt)

/-- The object of a function. -/
def BBFreqState.registrationMember (S : BBFreqState) (reg : BBFreqRegistration) : String × Value :=
  (reg.funcName, .object ((S.counts reg).map countMember))

/-- The value in the file. -/
def BBFreqState.value (S : BBFreqState) : Value :=
  .object (S.registrations.map S.registrationMember)

theorem lexes_writeCount {b : String × BitVec 64} (hb : Writable b.1) {text : List Char}
    {rest : List Token} (ht : EndsNumber text) (h : Lexes text rest) :
    Lexes (writeCount b ++ text) (memberTokens (countMember b) ++ rest) := by
  have hlo : -2 ^ 63 ≤ b.2.toInt := BitVec.le_toInt _
  have hhi : b.2.toInt < 2 ^ 64 := lt_trans BitVec.toInt_lt (by norm_num)
  have hindent : Spells [' ', ' ', ' ', ' '] [] := .marks rfl
  have hcolon : Spells [':', ' '] [.colon] := .marks rfl
  have hline := (hindent.append (spells_writeEscapedString hb)).append hcolon
    (Lexes.int hlo hhi ht h)
  simpa [writeCount, memberTokens, countMember] using hline

theorem spells_writeRegistration {S : BBFreqState} {reg : BBFreqRegistration}
    (hname : Writable reg.funcName) (hnames : ∀ n ∈ reg.bbNames, Writable n) :
    Spells (S.writeRegistration reg) (memberTokens (S.registrationMember reg)) := by
  have hcounts : ∀ b ∈ S.counts reg, Writable b.1 := by
    intro b hb
    obtain ⟨⟨n, i⟩, hn, rfl⟩ := List.mem_map.1 hb
    exact hnames n (List.fst_mem_of_mem_zipIdx hn)
  have hindent : Spells [' ', ' '] [] := .marks rfl
  have hopen : Spells [':', ' ', '{', '\n'] [.colon, .lbrace] := .marks rfl
  have hlines : Spells (writeLines writeCount (S.counts reg))
      (separated ((S.counts reg).map fun b => memberTokens (countMember b))) :=
    spells_writeLines fun b hb _ _ => lexes_writeCount (hcounts b hb)
  have hclose : Spells [' ', ' ', '}'] [.rbrace] := .marks rfl
  have hentry := (((hindent.append (spells_writeEscapedString hname)).append hopen).append
    hlines).append hclose
  simpa [BBFreqState.writeRegistration, memberTokens, BBFreqState.registrationMember,
    tokens_object, Function.comp_def] using hentry

/-- All names of the registered functions can be written. -/
def BBFreqState.Writable (S : BBFreqState) : Prop :=
  ∀ reg ∈ S.registrations, Trace.Writable reg.funcName ∧ ∀ n ∈ reg.bbNames, Trace.Writable n

/-- **The file spells the counters of the registered functions.** -/
theorem denotes_dump {S : BBFreqState} (hS : S.Writable) : Denotes S.dump S.value := by
  have hopen : Spells ['{', '\n'] [.lbrace] := .marks rfl
  have hlines : Spells (writeLines S.writeRegistration S.registrations)
      (separated (S.registrations.map fun reg => memberTokens (S.registrationMember reg))) :=
    spells_writeLines fun reg hreg _ _ _ h =>
      spells_writeRegistration (hS reg hreg).1 (hS reg hreg).2 h
  have hclose : Spells ['}', '\n'] [.rbrace] := .marks rfl
  have htext := (hopen.append hlines).append hclose .nil
  simpa [Denotes, BBFreqState.dump, BBFreqState.value, tokens_object, Function.comp_def]
    using htext

/-! ### Runs -/

/-- The event executes the block with the number `bb` of a function. -/
def FreqEvent.executes (name : String) (bb : ℕ) : FreqEvent → Bool
  | .block F i => F.name = name && i = bb
  | .mainReturn => false

/-- The function whose entry block is executed. -/
def FreqEvent.enters : FreqEvent → Option String
  | .block F bb => if bb = 0 then some F.name else none
  | .mainReturn => none

/-- The executions of a block. -/
def executions (events : List FreqEvent) (name : String) (bb : ℕ) : ℕ :=
  events.countP (FreqEvent.executes name bb)

/-- The functions in the order in which they were entered first. -/
def entered (events : List FreqEvent) : List String :=
  (events.filterMap FreqEvent.enters).eraseDups

/-- **The runtime counts the executions of every block modulo `2 ^ 64`.** -/
theorem counters_run (events : List FreqEvent) (name : String) (bb : ℕ) :
    (BBFreqState.init.run events).counters name bb =
      BitVec.ofNat 64 (executions events name bb) := by
  induction events using List.reverseRecOn with
  | nil => rfl
  | append_singleton events e ih =>
    rw [BBFreqState.run, List.foldl_append, List.foldl_cons, List.foldl_nil, ← BBFreqState.run,
      executions, List.countP_append, ← executions]
    cases e with
    | mainReturn => simpa [BBFreqState.step, FreqEvent.executes] using ih
    | block F i =>
      by_cases hname : F.name = name
      · subst hname
        by_cases hbb : i = bb
        · subst hbb
          simp [BBFreqState.step, ih, BitVec.ofNat_add, FreqEvent.executes]
        · have hbb' : bb ≠ i := fun h => hbb h.symm
          simp [BBFreqState.step, ih, hbb, hbb', FreqEvent.executes]
      · have hname' : name ≠ F.name := fun h => hname h.symm
        simp [BBFreqState.step, ih, hname, hname', FreqEvent.executes]

theorem eraseDups_append_singleton {α : Type} [DecidableEq α] (l : List α) (a : α) :
    (l ++ [a]).eraseDups = if a ∈ l then l.eraseDups else l.eraseDups ++ [a] := by
  rw [List.eraseDups_append]
  split_ifs with h
  · simp [List.removeAll, h]
  · simp [List.removeAll, h, List.eraseDups_cons]

theorem nodup_eraseDups {α : Type} [DecidableEq α] (l : List α) : l.eraseDups.Nodup := by
  induction l using List.reverseRecOn with
  | nil => exact List.nodup_nil
  | append_singleton l a ih =>
    rw [eraseDups_append_singleton]
    split_ifs with h
    · exact ih
    · exact ih.append (List.nodup_singleton a) (by simpa [List.mem_eraseDups] using h)

theorem map_funcName_register {registrations : List BBFreqRegistration} {names : List String}
    (h : registrations.map BBFreqRegistration.funcName = names.take maxFreqFunctions)
    (reg : BBFreqRegistration) :
    (bbFreqRegister registrations reg).map BBFreqRegistration.funcName =
      (if reg.funcName ∈ names then names else names ++ [reg.funcName]).take maxFreqFunctions := by
  have hlength := congrArg List.length h
  rw [List.length_map, List.length_take] at hlength
  rw [bbFreqRegister]
  by_cases hfull : registrations.length ≥ maxFreqFunctions
  · rw [if_pos hfull, h]
    split_ifs
    · rfl
    · rw [List.take_append_of_le_length (by omega)]
  · rw [List.take_of_length_le (by omega)] at h
    have hany : (registrations.any fun r => r.funcName = reg.funcName) = true ↔
        reg.funcName ∈ names := by
      rw [← h, List.any_eq_true, List.mem_map]
      simp only [decide_eq_true_eq]
    rw [if_neg hfull]
    simp only [hany]
    split_ifs
    · rw [h, List.take_of_length_le (by omega)]
    · rw [List.map_append, h, List.take_of_length_le]
      · rfl
      · rw [List.length_append, List.length_singleton]
        omega

theorem entered_append_block (events : List FreqEvent) (F : BBFunction) (bb : ℕ) :
    entered (events ++ [.block F bb]) =
      if bb = 0 then
        if F.name ∈ entered events then entered events else entered events ++ [F.name]
      else entered events := by
  rw [entered, List.filterMap_append]
  by_cases hbb : bb = 0
  · subst hbb
    have henters : [FreqEvent.block F 0].filterMap FreqEvent.enters = [F.name] := rfl
    rw [if_pos rfl, henters, eraseDups_append_singleton, ← entered]
    simp only [entered, List.mem_eraseDups]
  · simp [hbb, entered, FreqEvent.enters]

/-- **The functions entered first are registered**, as many as there is room for. -/
theorem registrations_run (events : List FreqEvent) :
    (BBFreqState.init.run events).registrations.map BBFreqRegistration.funcName =
      (entered events).take maxFreqFunctions := by
  induction events using List.reverseRecOn with
  | nil => rfl
  | append_singleton events e ih =>
    rw [BBFreqState.run, List.foldl_append, List.foldl_cons, List.foldl_nil, ← BBFreqState.run]
    cases e with
    | mainReturn =>
      have hsame : entered (events ++ [.mainReturn]) = entered events := by
        simp [entered, List.filterMap_cons, FreqEvent.enters]
      rw [hsame]
      exact ih
    | block F bb =>
      rw [entered_append_block]
      by_cases hbb : bb = 0
      · simp only [BBFreqState.step, if_pos hbb]
        exact map_funcName_register ih F.registration
      · simpa [BBFreqState.step, hbb] using ih

theorem file_run {before after : List FreqEvent} (h : .mainReturn ∉ after) :
    (BBFreqState.init.run (before ++ .mainReturn :: after)).file =
      some (BBFreqState.init.run before).dump := by
  have hafter : ∀ S : BBFreqState, (S.run after).file = S.file := by
    induction after with
    | nil => exact fun S => rfl
    | cons e after ih =>
      rw [List.mem_cons, not_or] at h
      intro S
      rw [BBFreqState.run, List.foldl_cons, ← BBFreqState.run, ih h.2]
      cases e with
      | block F bb => rfl
      | mainReturn => exact absurd rfl h.1
  rw [BBFreqState.run, List.foldl_append, List.foldl_cons, ← BBFreqState.run, ← BBFreqState.run,
    hafter]
  rfl

/-! ### The module -/

/-- The functions of a module. -/
structure BBModule where
  functions : List BBFunction
  distinct : (functions.map BBFunction.name).Nodup

/-- All names of the module can be written. -/
def BBModule.Writable (M : BBModule) : Prop :=
  ∀ F ∈ M.functions, Trace.Writable F.name ∧ ∀ n ∈ F.bbNames, Trace.Writable n

/-- The events of a program: its blocks are those of the module. -/
def BBModule.Runs (M : BBModule) (events : List FreqEvent) : Prop :=
  ∀ F bb, .block F bb ∈ events → F ∈ M.functions ∧ bb < F.blocks.length

theorem BBModule.eq_of_name {M : BBModule} {F G : BBFunction} (hF : F ∈ M.functions)
    (hG : G ∈ M.functions) (h : F.name = G.name) : F = G :=
  List.inj_on_of_nodup_map M.distinct hF hG h

/-- Only functions of the module are registered. -/
theorem BBModule.Runs.registration {M : BBModule} {events : List FreqEvent} (h : M.Runs events) :
    ∀ reg ∈ (BBFreqState.init.run events).registrations,
      ∃ F ∈ M.functions, reg = F.registration := by
  induction events using List.reverseRecOn with
  | nil => exact fun _ hreg => absurd hreg List.not_mem_nil
  | append_singleton events e ih =>
    have ih := ih fun F bb hF => h F bb (List.mem_append_left _ hF)
    rw [BBFreqState.run, List.foldl_append, List.foldl_cons, List.foldl_nil, ← BBFreqState.run]
    cases e with
    | mainReturn => exact ih
    | block F bb =>
      intro reg hreg
      simp only [BBFreqState.step, bbFreqRegister] at hreg
      split_ifs at hreg
      · exact ih reg hreg
      · exact ih reg hreg
      · rcases List.mem_append.1 hreg with hreg | hreg
        · exact ih reg hreg
        · exact ⟨F, (h F bb (by simp)).1, List.mem_singleton.1 hreg⟩
      · exact ih reg hreg

/-! ### Loading the file -/

/-- Every block of the function has a name of its own. -/
def BBFunction.Named (F : BBFunction) : Prop := ∀ b ∈ F.blocks, b.isSome = true

theorem BBFunction.length_bbNames (F : BBFunction) : F.bbNames.length = F.blocks.length := by
  simp [bbNames, ensureBBNames]

theorem BBFunction.getElem?_bbNames (F : BBFunction) (i : ℕ) :
    F.bbNames[i]? = F.blocks[i]?.map fun b => b.getD ("bb." ++ toString i) := by
  simp [bbNames, ensureBBNames, Function.comp_def]

/-- A block is found by its name if it has one. -/
theorem BBFunction.idxOf_bbNames (F : BBFunction) {i : ℕ} {n : String}
    (hn : F.bbNames[i]? = some n) :
    F.blocks.idxOf? (some n) = if F.blocks[i]? = some (some n) then some i else none := by
  have hat : ∀ j, F.blocks[j]? = some (some n) → j = i := by
    intro j hj
    have hname : F.bbNames[j]? = some n := by
      rw [F.getElem?_bbNames, hj, Option.map_some, Option.getD_some]
    obtain ⟨hi, hni⟩ := List.getElem?_eq_some_iff.1 hn
    obtain ⟨hj, hnj⟩ := List.getElem?_eq_some_iff.1 hname
    exact (List.Nodup.getElem_inj_iff F.distinct).1 (hnj.trans hni.symm)
  split_ifs with hb
  · obtain ⟨hi, hbi⟩ := List.getElem?_eq_some_iff.1 hb
    refine List.idxOf?_eq_some_iff.2 ⟨hi, hbi, fun j hj h => ?_⟩
    exact absurd (hat j (by rw [List.getElem?_eq_getElem (hj.trans hi), h])) (by omega)
  · rw [List.idxOf?_eq_none_iff]
    intro hmem
    obtain ⟨j, hj⟩ := List.mem_iff_getElem?.1 hmem
    exact hb (hat j hj ▸ hj)

theorem foldlM_loadBlock (castDouble : String → BitVec 64) (F : BBFunction)
    (members : List (String × Value)) (loader : BBFreqLoader) :
    members.foldlM (BBFreqLoader.loadBlock castDouble F) loader =
      (members.mapM (F.memberCount castDouble)).map fun entries =>
        ⟨entries.reverse ++ loader.counts⟩ := by
  induction members generalizing loader with
  | nil => rfl
  | cons m members ih =>
    cases hm : F.memberCount castDouble m with
    | none => simp [BBFreqLoader.loadBlock, hm]
    | some e =>
      cases hms : members.mapM (F.memberCount castDouble) <;>
        simp [BBFreqLoader.loadBlock, hm, ih, hms]

theorem mapM_eq_none {α β : Type} {f : α → Option β} {l : List α} {a : α} (ha : a ∈ l)
    (h : f a = none) : l.mapM f = none := by
  induction l with
  | nil => exact absurd ha List.not_mem_nil
  | cons b l ih =>
    rcases List.mem_cons.1 ha with rfl | ha
    · simp [h]
    · cases hb : f b <;> simp [hb, ih ha]

/-- A counter of 64 bits survives its decimal spelling, also where that is negative. -/
theorem getUInt64_int (castDouble : String → BitVec 64) (x : BitVec 64) :
    getUInt64 castDouble (.int x.toInt) = some x := by
  have hx : BitVec.ofInt 64 x.toInt = x := BitVec.ofInt_toInt
  cases hz : x.toInt with
  | ofNat n =>
    rw [hz, Int.ofNat_eq_natCast, BitVec.ofInt_natCast] at hx
    rw [Value.int, getUInt64, hx]
  | negSucc n => rw [Value.int, getUInt64, ← hz, hx]

section

variable {S : BBFreqState} {F : BBFunction} (castDouble : String → BitVec 64)

theorem memberCount_countMember {i : ℕ} {n : String} (hn : F.bbNames[i]? = some n)
    (x : BitVec 64) : F.memberCount castDouble (countMember (n, x)) =
      if F.blocks[i]? = some (some n) then some (i, x) else none := by
  rw [BBFunction.memberCount, countMember, getUInt64_int, F.idxOf_bbNames hn]
  split_ifs <;> rfl

/-- The members of a function name its blocks in some order. -/
theorem items_counts_perm : (Value.object ((S.counts F.registration).map countMember)).items.Perm
    ((S.counts F.registration).map countMember) := by
  refine Value.items_object_perm ?_
  have hkeys : ((S.counts F.registration).map countMember).map Prod.fst = F.bbNames := by
    simp [BBFreqState.counts, BBFunction.registration, countMember, Function.comp_def]
  rw [hkeys]
  exact F.distinct

theorem mem_counts {m : String × Value} :
    m ∈ (S.counts F.registration).map countMember ↔
      ∃ i n, F.bbNames[i]? = some n ∧ m = countMember (n, S.counters F.name i) := by
  constructor
  · intro h
    obtain ⟨⟨n, x⟩, hb, rfl⟩ := List.mem_map.1 h
    obtain ⟨⟨n', i⟩, hn, heq⟩ := List.mem_map.1 hb
    obtain ⟨rfl, rfl⟩ := Prod.mk.inj heq
    exact ⟨i, n', List.mem_zipIdx_iff_getElem?.1 hn, rfl⟩
  · rintro ⟨i, n, hn, rfl⟩
    exact List.mem_map_of_mem (List.mem_map.2 ⟨(n, i), List.mem_zipIdx_iff_getElem?.2 hn, rfl⟩)

/-- **The loader finds the counters of a function whose blocks all have names.** -/
theorem foldlM_loadBlock_of_named (h : F.Named) :
    ∃ loader, (Value.object ((S.counts F.registration).map countMember)).items.foldlM
        (BBFreqLoader.loadBlock castDouble F) ⟨[]⟩ = some loader ∧
      ∀ bb, loader.getBlockCount bb =
        if bb < F.blocks.length then some (S.counters F.name bb) else none := by
  set members := (S.counts F.registration).map countMember
  set entries := (Value.object members).items.filterMap (F.memberCount castDouble)
  have hsome : ∀ {i n}, F.bbNames[i]? = some n → ∀ x : BitVec 64,
      F.memberCount castDouble (countMember (n, x)) = some (i, x) := by
    intro i n hn x
    rw [memberCount_countMember castDouble hn, if_pos]
    rw [F.getElem?_bbNames] at hn
    obtain ⟨b, hb, hname⟩ := Option.map_eq_some_iff.1 hn
    obtain ⟨n', rfl⟩ := Option.isSome_iff_exists.1 (h b (List.mem_of_getElem? hb))
    rw [hb, ← hname, Option.getD_some]
  have hmapM : (Value.object members).items.mapM (F.memberCount castDouble) = some entries := by
    refine mapM_eq_filterMap fun m hm => ?_
    obtain ⟨i, n, hn, rfl⟩ := mem_counts.1 (items_counts_perm.mem_iff.1 hm)
    rw [hsome hn, Option.isSome_some]
  have hmem : ∀ bb x, (bb, x) ∈ entries ↔ bb < F.blocks.length ∧ x = S.counters F.name bb := by
    intro bb x
    rw [List.mem_filterMap, ← F.length_bbNames]
    constructor
    · rintro ⟨m, hm, heq⟩
      obtain ⟨i, n, hn, rfl⟩ := mem_counts.1 (items_counts_perm.mem_iff.1 hm)
      obtain ⟨rfl, rfl⟩ := Prod.mk.inj (Option.some.inj ((hsome hn _).symm.trans heq))
      exact ⟨(List.getElem?_eq_some_iff.1 hn).1, rfl⟩
    · rintro ⟨hbb, rfl⟩
      have hn := List.getElem?_eq_getElem hbb
      exact ⟨_, items_counts_perm.mem_iff.2 (mem_counts.2 ⟨bb, _, hn, rfl⟩), hsome hn _⟩
  refine ⟨⟨entries.reverse⟩, ?_, fun bb => ?_⟩
  · rw [foldlM_loadBlock, hmapM, Option.map_some, List.append_nil]
  · exact lookup_eq_ite fun x => by rw [List.mem_reverse, hmem]

/-- A block whose name is made up is not found again. -/
theorem foldlM_loadBlock_of_not_named (h : ¬F.Named) :
    (Value.object ((S.counts F.registration).map countMember)).items.foldlM
      (BBFreqLoader.loadBlock castDouble F) ⟨[]⟩ = none := by
  simp only [BBFunction.Named, not_forall] at h
  obtain ⟨b, hb, hnone⟩ := h
  obtain ⟨i, hi⟩ := List.mem_iff_getElem?.1 hb
  have hname : F.bbNames[i]? = some (b.getD ("bb." ++ toString i)) := by
    rw [F.getElem?_bbNames, hi, Option.map_some]
  have hm := memberCount_countMember castDouble hname (S.counters F.name i)
  rw [if_neg fun hsome => hnone (by rw [hi, Option.some.injEq] at hsome; rw [hsome]; rfl)] at hm
  have hmem := mem_counts (S := S) |>.2 ⟨i, _, hname, rfl⟩
  rw [foldlM_loadBlock, mapM_eq_none (items_counts_perm.mem_iff.2 hmem) hm]
  rfl

end

theorem BBModule.Runs.writable {M : BBModule} {events : List FreqEvent} (h : M.Runs events)
    (hM : M.Writable) : (BBFreqState.init.run events).Writable := by
  intro reg hreg
  obtain ⟨F, hF, rfl⟩ := h.registration reg hreg
  exact hM F hF

/-- The object of a function in the file: there is one just if it was entered in time. -/
theorem BBModule.Runs.get?_value {M : BBModule} {events : List FreqEvent} (h : M.Runs events)
    {F : BBFunction} (hF : F ∈ M.functions) :
    (BBFreqState.init.run events).value.get? F.name =
      if F.name ∈ (entered events).take maxFreqFunctions then
        some (.object (((BBFreqState.init.run events).counts F.registration).map countMember))
      else none := by
  set S := BBFreqState.init.run events
  have hkeys : (S.registrations.map S.registrationMember).map Prod.fst =
      (entered events).take maxFreqFunctions := by
    rw [← registrations_run, List.map_map]
    rfl
  split_ifs with hentered
  · have hnodup : ((S.registrations.map S.registrationMember).map Prod.fst).Nodup := by
      rw [hkeys]
      exact (nodup_eraseDups _).sublist (List.take_sublist _ _)
    rw [← registrations_run] at hentered
    obtain ⟨reg, hreg, hname⟩ := List.mem_map.1 hentered
    obtain ⟨G, hG, rfl⟩ := h.registration reg hreg
    obtain rfl := M.eq_of_name hG hF hname
    exact (Value.get?_object hnodup).2 (List.mem_map.2 ⟨_, hreg, rfl⟩)
  · exact Value.get?_object_eq_none (by rwa [hkeys])

/-- The loader goes over the counts of a function that is in the file. -/
private theorem load_file {M : BBModule} (hM : M.Writable) {before after : List FreqEvent}
    (hbefore : M.Runs before) (hafter : .mainReturn ∉ after) {parse : List Char → Option Value}
    (hparse : Reads parse) (castDouble : String → BitVec 64) {F : BBFunction}
    (hF : F ∈ M.functions) :
    BBFreqLoader.load parse castDouble
        (BBFreqState.init.run (before ++ .mainReturn :: after)).file F =
      if F.name ∈ (entered before).take maxFreqFunctions then
        (Value.object (((BBFreqState.init.run before).counts F.registration).map
          countMember)).items.foldlM (BBFreqLoader.loadBlock castDouble F) ⟨[]⟩
      else none := by
  simp only [BBFreqLoader.load, file_run hafter, Option.bind_eq_bind, Option.bind_some,
    hparse (denotes_dump (hbefore.writable hM)), hbefore.get?_value hF]
  split_ifs <;> rfl

/-- What the loader finds for a function that is in the file. -/
theorem BBModule.Runs.load_eq_some {M : BBModule} (hM : M.Writable) {before after : List FreqEvent}
    (hbefore : M.Runs before) (hafter : .mainReturn ∉ after) {parse : List Char → Option Value}
    (hparse : Reads parse) (castDouble : String → BitVec 64) {F : BBFunction}
    (hF : F ∈ M.functions) (hentered : F.name ∈ (entered before).take maxFreqFunctions)
    (hnamed : F.Named) :
    ∃ loader, BBFreqLoader.load parse castDouble
        (BBFreqState.init.run (before ++ .mainReturn :: after)).file F = some loader ∧
      ∀ bb, loader.getBlockCount bb =
        if bb < F.blocks.length then some (BitVec.ofNat 64 (executions before F.name bb))
        else none := by
  obtain ⟨loader, hload, hcounts⟩ :=
    foldlM_loadBlock_of_named (S := BBFreqState.init.run before) castDouble hnamed
  rw [load_file hM hbefore hafter hparse castDouble hF, if_pos hentered]
  exact ⟨loader, hload, fun bb => by rw [hcounts, counters_run]⟩

/-- **The loader reads the executions of every block.** For a function that is among the first ones
entered, and whose blocks had their names before the instrumentation, it finds how often each block
was executed up to the last return of `main`, modulo `2 ^ 64`. For any other function it fails. The
names of the module hold no control characters but newlines and tabs, since the others are written
as they are. -/
theorem load_run (M : BBModule) (hM : M.Writable) {before after : List FreqEvent}
    (hbefore : M.Runs before) (hafter : .mainReturn ∉ after) {parse : List Char → Option Value}
    (hparse : Reads parse) (castDouble : String → BitVec 64) {F : BBFunction}
    (hF : F ∈ M.functions) :
    let loaded := BBFreqLoader.load parse castDouble
      (BBFreqState.init.run (before ++ .mainReturn :: after)).file F
    (F.name ∈ (entered before).take maxFreqFunctions ∧ F.Named →
      ∃ loader, loaded = some loader ∧ ∀ bb, loader.getBlockCount bb =
        if bb < F.blocks.length then some (BitVec.ofNat 64 (executions before F.name bb))
        else none) ∧
    (¬(F.name ∈ (entered before).take maxFreqFunctions ∧ F.Named) → loaded = none) := by
  intro loaded
  refine ⟨fun ⟨hentered, hnamed⟩ =>
    hbefore.load_eq_some hM hafter hparse castDouble hF hentered hnamed, fun hnot => ?_⟩
  rw [show loaded = _ from load_file hM hbefore hafter hparse castDouble hF]
  split_ifs with hentered
  · exact foldlM_loadBlock_of_not_named castDouble fun hnamed => hnot ⟨hentered, hnamed⟩
  · rfl

/-- A function with a loop of one block. -/
def loopFunction : BBFunction := ⟨"main", [some "entry", some "loop \"1\""], by decide⟩

/-- The loop runs twice, and then the counts are written. -/
theorem load_run_loopFunction :
    ∃ loader, BBFreqLoader.load Json.parse (fun _ => 0)
        (BBFreqState.init.run [.block loopFunction 0, .block loopFunction 1, .block loopFunction 1,
          .mainReturn]).file loopFunction = some loader ∧
      loader.getBlockCount 1 = some 2 := by
  have hM : BBModule.Writable ⟨[loopFunction], by decide⟩ := by
    intro F hF
    obtain rfl := List.mem_singleton.1 hF
    have hall : (loopFunction.bbNames.all fun n => n.toList.all isWritable) = true := by decide
    exact ⟨.of_all (by decide), fun n hn => .of_all (List.all_eq_true.1 hall n hn)⟩
  have hruns : BBModule.Runs ⟨[loopFunction], by decide⟩
      [.block loopFunction 0, .block loopFunction 1, .block loopFunction 1] := by
    intro F bb h
    simp only [List.mem_cons, FreqEvent.block.injEq, List.not_mem_nil, or_false] at h
    rcases h with ⟨rfl, rfl⟩ | ⟨rfl, rfl⟩ | ⟨rfl, rfl⟩
    all_goals exact ⟨List.mem_singleton.2 rfl, by decide⟩
  have hafter : FreqEvent.mainReturn ∉ ([] : List FreqEvent) := List.not_mem_nil
  obtain ⟨loader, hload, hcounts⟩ := (load_run ⟨[loopFunction], by decide⟩ hM hruns hafter
    reads_parse (fun _ => 0) (List.mem_singleton.2 rfl)).1
    ⟨by decide, by intro b hb; revert b; decide⟩
  exact ⟨loader, hload, hcounts 1⟩

end Bao.Trace
