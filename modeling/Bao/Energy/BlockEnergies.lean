import Bao.Energy.BlockLabels
import Bao.Energy.Costs

/-!
# Block energies

The analyzer sums the costs of the instructions in the ranges of every block, and writes the sums
down under the names of the blocks, with a zero for each block of the mapping that has no code. The
`AssemblyBasedEstimator` of the passes looks the energy of a block of its function up there.

* **Nothing is lost on the way** (`estimates_make_up_energy`). In the object file of a labelled
  module, the estimates of all blocks and the unmapped energy make up the energy of all
  instructions.
* **What is reported is enough** (`reported_keys_suffice`). With a cost for every required key no
  key is missing, and without a missing key the default energy does not count.

Energies are exact rationals; how a number is written is a parameter.
-/

namespace Bao.Energy

open Text Json Addressing

/-! ### The analyzer -/

/-- What the analyzer is given. -/
structure Analyzer where
  InputELF : String
  obj : ObjectFile
  sort : List LineEntry → List LineEntry
  model : EnergyModel
  bbMapping : List (String × List (String × String))
  StackAccessPenalty : ℚ := 0
  UnknownCopySize : ℕ := 0

/-- A member of `bb_energy`. -/
structure BlockEnergy where
  energy : ℚ
  instructionCount : ℕ
  deriving DecidableEq

/-- The members of `bb_energy` by the names of the blocks. -/
abbrev BlockEnergies := AList fun _ : String => BlockEnergy

namespace Analyzer

variable (A : Analyzer)

/-- The disassembly. -/
def instructions : List Listed := listedFrom [] (disassemble A.obj)

def bbMaps : String → Option FunctionBBMap := parse A.sort A.obj

/-- The functions of `bbMaps`. -/
def functions : List String :=
  ((parseFunctionRanges A.obj).map Segment.value).dedup.filter fun func => (A.bbMaps func).isSome

/-- The blocks of a function in the order of their numbers. -/
def blocks (m : FunctionBBMap) : List ℕ :=
  (List.range ((A.obj.lines.map LineEntry.line).foldl max 1 + 1)).filter fun bb => m bb ≠ []

/-- The instructions in the ranges of a block, once for each range. -/
def inRanges (ranges : List AddressRange) : List Listed :=
  ranges.flatMap fun range => A.instructions.filter fun l =>
    range.start ≤ l.instr.address ∧ l.instr.address < range.stop

/-- r4 is the frame pointer if the prologue says so. -/
def fpIsR4 (m : FunctionBBMap) : Bool :=
  decide (0 < A.StackAccessPenalty) && (A.blocks m).any fun bb => (A.inRanges (m bb)).any fun l =>
    l.instr.mnemonic = "mov" && (fpPrologue.fullMatch l.instr.operands.toList).isSome

/-- What an instruction pays for the stack. -/
def stackEnergy (fpIsR4 : Bool) (l : Listed) : ℚ :=
  if 0 < A.StackAccessPenalty then A.StackAccessPenalty * countStackAccesses l.instr fpIsR4 else 0

def query (l : Listed) : Query := A.model.query A.UnknownCopySize l

/-- What an instruction costs in a block. -/
def cost (fpIsR4 : Bool) (l : Listed) : ℚ := (A.query l).energy + A.stackEnergy fpIsR4 l

/-- The loop over the ranges of a block. -/
def blockEnergy (m : FunctionBBMap) (bb : ℕ) : BlockEnergy where
  energy := ((A.inRanges (m bb)).map (A.cost (A.fpIsR4 m))).sum
  instructionCount := (A.inRanges (m bb)).length

/-- The name of a block; the number of the fallback has 32 bits. -/
def bbName (func : String) (bbIndex : ℕ) : String :=
  (((A.bbMapping.lookup func).getD []).lookup (toString bbIndex)).getD
    ("bb" ++ toString ((bbIndex + (2 ^ 32 - 1)) % 2 ^ 32))

/-- `bb_energy` of a function in the line table. -/
def bbEnergies (func : String) (m : FunctionBBMap) : BlockEnergies :=
  (A.blocks m).foldl (fun es bb => es.insert (A.bbName func bb) (A.blockEnergy m bb)) ∅

/-- A block of the mapping without code. -/
def addMissing (es : BlockEnergies) (bbName : String) : BlockEnergies :=
  if bbName ∈ es then es else es.insert bbName ⟨0, 0⟩

/-- `bb_energy` of a function, with all blocks of the mapping. -/
def allEnergies (func : String) : BlockEnergies :=
  (((A.bbMapping.lookup func).getD []).map Prod.snd).foldl addMissing
    (((A.bbMaps func).map (A.bbEnergies func)).getD ∅)

/-- The functions in the output. -/
def outputFunctions : List String :=
  A.functions ++ (A.bbMapping.map Prod.fst).filter (· ∉ A.functions)

/-- `instructionMapped`. -/
def isMapped (l : Listed) : Bool :=
  A.functions.any fun func => ((A.bbMaps func).map fun m => (A.blocks m).any fun bb =>
    (m bb).any fun range => range.start ≤ l.instr.address && l.instr.address < range.stop).getD
      false

def unmapped : List Listed := A.instructions.filter fun l => !A.isMapped l

def unmappedEnergy : ℚ := (A.unmapped.map fun l => (A.query l).energy).sum

/-- The instructions the model is asked for: those of the blocks, then the unmapped ones. -/
def queried : List Listed :=
  (A.functions.flatMap fun func => ((A.bbMaps func).map fun m => (A.blocks m).flatMap fun bb =>
    A.inRanges (m bb)).getD []) ++ A.unmapped

/-- A set of keys, as `std::set` lists it. -/
def keySet (keys : List String) : List String := keys.dedup.mergeSort fun a b => decide (a ≤ b)

def requiredParameters : List String :=
  keySet (A.queried.flatMap fun l => (A.query l).requiredKeys)

def missingParameters : List String :=
  keySet (A.queried.flatMap fun l => (A.query l).missingKeys)

/-! ### The output -/

/-- How a `double` is written and read. -/
structure DoubleFormat where
  lexeme : ℚ → String
  value : String → ℚ

variable (fmt : DoubleFormat)

def blockValue (e : BlockEnergy) : Value :=
  .object [("energy", .float (fmt.lexeme e.energy)),
    ("instruction_count", .unsigned e.instructionCount)]

/-- The blocks are counted anew where the mapping has the function. -/
def bbCount (func : String) : ℕ :=
  if func ∈ A.bbMapping.map Prod.fst then (A.allEnergies func).entries.length
  else ((A.bbMaps func).map fun m => (A.blocks m).length).getD 0

def functionValue (func : String) : Value :=
  .object [("bb_count", .unsigned (A.bbCount func)),
    ("bb_energy", .object ((A.allEnergies func).entries.map fun e => (e.1, blockValue fmt e.2)))]

def output : Value :=
  .object [("source_file", .string A.InputELF), ("target", .string "msp430fr5994"),
    ("functions", .object (A.outputFunctions.map fun func => (func, A.functionValue fmt func))),
    ("unmapped", blockValue fmt ⟨A.unmappedEnergy, A.unmapped.length⟩),
    ("required_parameters", .array (A.requiredParameters.map .string)),
    ("missing_parameters", .array (A.missingParameters.map .string))]

/-- **The analyzer**: the output, unless something it needs is empty. -/
def main : Option Value :=
  if A.functions = [] ∨ A.instructions = [] ∨ A.bbMapping = [] then none else some (A.output fmt)

end Analyzer

/-! ### The estimator -/

/-- `functionEnergy_`. -/
structure AssemblyBasedEstimator where
  functionEnergy : List (String × List (String × ℚ))

structure EnergyEstimate where
  cost : ℚ
  method : String
  deriving DecidableEq

namespace AssemblyBasedEstimator

variable (fmt : Analyzer.DoubleFormat)

/-- `get<double>` of a number. -/
def getDouble : Value → Option ℚ
  | .unsigned n => some n
  | .integer z => some z
  | .float lexeme => some (fmt.value lexeme)
  | _ => none

/-- A block in the data; without an energy it has none. -/
def loadBlock (bb : String × Value) : Option (String × ℚ) :=
  match bb.2.get? "energy" with
  | none => some (bb.1, 0)
  | some energy => (getDouble fmt energy).map fun e => (bb.1, e)

def loadFunction (func : String × Value) : Option (String × List (String × ℚ)) := do
  let bbEnergy ← func.2.get? "bb_energy"
  let bbEnergies ← bbEnergy.items.mapM (loadBlock fmt)
  some (func.1, bbEnergies)

/-- **`loadEnergyData`**; a function without `bb_energy` is skipped. -/
def loadEnergyData (data : Value) : Option AssemblyBasedEstimator := do
  let functions ← data.get? "functions"
  let functionEnergy ← (functions.items.filter fun func =>
    (func.2.get? "bb_energy").isSome).mapM (loadFunction fmt)
  some ⟨functionEnergy⟩

/-- **`estimate`** for the block at a place in a function. -/
def estimate (E : AssemblyBasedEstimator) (F : IRFunction) (idx : ℕ) : EnergyEstimate :=
  match E.functionEnergy.lookup F.name with
  | none => ⟨0, "assembly-missing-function"⟩
  | some bbEnergies =>
    match bbEnergies.lookup (F.getBlockName idx) with
    | some energy => ⟨energy, "assembly-lookup"⟩
    | none => ⟨0, "assembly-missing-bb"⟩

end AssemblyBasedEstimator

/-! ### Names -/

section Names

variable {α : Type*} {es : BlockEnergies} {name : α → String} {v : α → BlockEnergy} {l : List α}

theorem lookup_foldl_insert_of_notMem {key : String} (h : ∀ a ∈ l, name a ≠ key) :
    (l.foldl (fun es a => es.insert (name a) (v a)) es).lookup key = es.lookup key := by
  induction l generalizing es with
  | nil => rfl
  | cons a l ih =>
    obtain ⟨ha, hl⟩ := List.forall_mem_cons.mp h
    rw [List.foldl_cons, ih hl, AList.lookup_insert_ne ha.symm]

/-- Entries with different names do not replace each other. -/
theorem lookup_foldl_insert {a : α} (ha : a ∈ l) (h : ∀ b ∈ l, name b = name a → b = a) :
    (l.foldl (fun es a => es.insert (name a) (v a)) es).lookup (name a) = some (v a) := by
  induction l generalizing es with
  | nil => cases ha
  | cons b l ih =>
    obtain ⟨hb, hl⟩ := List.forall_mem_cons.mp h
    rw [List.foldl_cons]
    by_cases hmem : a ∈ l
    · exact ih hmem hl
    · obtain rfl := (List.mem_cons.mp ha).resolve_right hmem
      rw [lookup_foldl_insert_of_notMem fun b hb heq => hmem (hl b hb heq ▸ hb),
        AList.lookup_insert]

theorem lookup_foldl_addMissing (names : List String) (key : String) :
    (names.foldl Analyzer.addMissing es).lookup key =
      (es.lookup key).or (if key ∈ names then some ⟨0, 0⟩ else none) := by
  induction names generalizing es with
  | nil => simp
  | cons n names ih =>
    rw [List.foldl_cons, ih, Analyzer.addMissing]
    by_cases hn : n ∈ es
    · rw [if_pos hn]
      by_cases hkey : key = n
      · obtain ⟨e, he⟩ := Option.isSome_iff_exists.mp (AList.lookup_isSome.mpr hn)
        rw [hkey, he, Option.some_or, Option.some_or]
      · simp [hkey]
    · rw [if_neg hn]
      by_cases hkey : key = n
      · rw [hkey, AList.lookup_insert, AList.lookup_eq_none.mpr hn]
        simp
      · rw [AList.lookup_insert_ne hkey]
        simp [hkey]

end Names

/-! ### The energies of a labelled module -/

namespace Analyzer

/-- The instructions that are charged to a block. -/
def charged (A : Analyzer) (func : String) (bb : ℕ) : List Listed :=
  ((A.bbMaps func).map fun m => A.inRanges (m bb)).getD []

/-- Whether r4 is the frame pointer of a function. -/
def usesFP (A : Analyzer) (func : String) : Bool := ((A.bbMaps func).map A.fpIsR4).getD false

/-- What is charged to a block. -/
def ownEnergy (A : Analyzer) (func : String) (bb : ℕ) : BlockEnergy where
  energy := ((A.charged func bb).map (A.cost (A.usesFP func))).sum
  instructionCount := (A.charged func bb).length

variable {M : IRModule} {A : Analyzer}

theorem blockEnergy_eq {func : String} {m : FunctionBBMap} (hm : A.bbMaps func = some m) (bb : ℕ) :
    A.blockEnergy m bb = A.ownEnergy func bb := by
  simp [blockEnergy, ownEnergy, charged, usesFP, hm]

theorem charged_of_ranges {func : String} {m : FunctionBBMap} (hm : A.bbMaps func = some m) {bb : ℕ}
    (hbb : m bb = []) : A.charged func bb = [] := by
  rw [charged, hm, Option.map_some, Option.getD_some, hbb]
  rfl

theorem mem_blocks (hsort : SortsByAddress A.sort) (hcompiled : Compiled (labelModule M) A.obj)
    {func : String} {m : FunctionBBMap} (hm : A.bbMaps func = some m) {bb : ℕ} :
    bb ∈ A.blocks m ↔ m bb ≠ [] := by
  rw [blocks, List.mem_filter, List.mem_range, decide_eq_true_eq]
  refine ⟨And.right, fun hbb => ⟨?_, hbb⟩⟩
  obtain ⟨fr, hfr, -, hrow, hline⟩ := line_of_ranges hsort A.obj hm hbb
  obtain ⟨-, e, he, -, -, rfl⟩ := hline (hcompiled.mapped fr hfr hrow)
  exact Nat.lt_succ_of_le (le_foldl_max (.inl (List.mem_map_of_mem he)))

variable (hmapping : IsMapping M A.bbMapping) {F : IRFunction} (hF : F ∈ M.definitions)
include hmapping hF

theorem lookup_bbMapping :
    ∃ entries, A.bbMapping.lookup F.name = some entries ∧ entries.Perm F.numbers := by
  obtain ⟨entries, hentries⟩ := hmapping.complete F hF
  refine ⟨entries, (lookup_eq_some hmapping.nodup).mpr hentries, ?_⟩
  obtain ⟨F', hF', hname, hperm⟩ := hmapping.mem _ hentries
  rwa [List.inj_on_of_nodup_map (nodup_definitions M) hF' hF hname] at hperm

/-- The analyzer knows a block of the module by its name. -/
theorem bbName_eq {idx : ℕ} (hidx : idx < F.blocks.length) :
    A.bbName F.name (idx + 1) = F.getBlockName idx := by
  obtain ⟨entries, hentries, hperm⟩ := lookup_bbMapping hmapping hF
  have hnodup : (entries.map Prod.fst).Nodup := (hperm.map _).nodup_iff.mpr F.nodup_numbers
  rw [bbName, hentries, Option.getD_some, (lookup_eq_some hnodup).mpr
    (hperm.mem_iff.mpr (IRFunction.mem_numbers.mpr ⟨idx, hidx, rfl⟩)), Option.getD_some]

/-- **The output has the energy of every block of the module under its name.** -/
theorem lookup_allEnergies (hsort : SortsByAddress A.sort)
    (hcompiled : Compiled (labelModule M) A.obj) (hfree : F.NumbersFree) {idx : ℕ}
    (hidx : idx < F.blocks.length) : (A.allEnergies F.name).lookup (F.getBlockName idx) =
      some (A.ownEnergy F.name (idx + 1)) := by
  obtain ⟨entries, hentries, hperm⟩ := lookup_bbMapping hmapping hF
  have hmem : F.getBlockName idx ∈ entries.map Prod.snd :=
    (hperm.map Prod.snd).mem_iff.mpr
      (List.mem_map_of_mem (IRFunction.mem_numbers.mpr ⟨idx, hidx, rfl⟩))
  rw [allEnergies, lookup_foldl_addMissing, hentries, Option.getD_some, if_pos hmem]
  cases hm : A.bbMaps F.name with
  | none => simp [ownEnergy, charged, hm]
  | some m =>
    -- the blocks with a range are blocks of this function, so their names differ
    have hblock : ∀ bb ∈ A.blocks m, ∃ i < F.blocks.length, bb = i + 1 := fun bb hbb => by
      obtain ⟨F', hF', hname, i, hi, rfl⟩ :=
        hcompiled.block hsort hm ((mem_blocks hsort hcompiled hm).mp hbb)
      obtain rfl := List.inj_on_of_nodup_map (nodup_definitions M) hF' hF hname
      exact ⟨i, hi, rfl⟩
    have hinj : ∀ bb ∈ A.blocks m, A.bbName F.name bb = F.getBlockName idx → bb = idx + 1 := by
      intro bb hbb heq
      obtain ⟨i, hi, rfl⟩ := hblock bb hbb
      rw [bbName_eq hmapping hF hi] at heq
      rw [IRFunction.getBlockName_inj hfree hi hidx heq]
    rw [Option.map_some, Option.getD_some, bbEnergies]
    by_cases hbb : m (idx + 1) = []
    · rw [lookup_foldl_insert_of_notMem fun bb hmem heq => ?_]
      · simp [ownEnergy, charged_of_ranges hm hbb]
      · rw [hinj bb hmem heq] at hmem
        exact (mem_blocks hsort hcompiled hm).mp hmem hbb
    · rw [← bbName_eq hmapping hF hidx, lookup_foldl_insert
        ((mem_blocks hsort hcompiled hm).mpr hbb), blockEnergy_eq hm]
      · rfl
      · rwa [bbName_eq hmapping hF hidx]

end Analyzer

/-! ### What the estimator reads -/

namespace Analyzer

/-- The numbers of the output are read as they were written. -/
def ReadsEnergies (A : Analyzer) (fmt : DoubleFormat) : Prop :=
  ∀ func ∈ A.outputFunctions, ∀ e ∈ (A.allEnergies func).entries,
    fmt.value (fmt.lexeme e.2.energy) = e.2.energy

variable {A : Analyzer} {fmt : DoubleFormat}

theorem nodup_outputFunctions (h : (A.bbMapping.map Prod.fst).Nodup) : A.outputFunctions.Nodup := by
  refine List.Nodup.append ((List.nodup_dedup _).filter _) (h.filter _) fun func hfunc hmem => ?_
  exact (by simpa using (List.mem_filter.mp hmem).2 : func ∉ A.functions) hfunc

private theorem get?_pair {v w : Value} {a b : String} (hab : a ≠ b) :
    (Value.object [(a, v), (b, w)]).get? a = some v ∧
      (Value.object [(a, v), (b, w)]).get? b = some w := by
  have h : (([(a, v), (b, w)] : List (String × Value)).map Prod.fst).Nodup := by simpa using hab
  exact ⟨(Value.get?_object h).mpr (by simp), (Value.get?_object h).mpr (by simp)⟩

private theorem loadFunction_member (hfmt : A.ReadsEnergies fmt) (func : String)
    (hfunc : func ∈ A.outputFunctions) : ∃ bbEnergies : List (String × ℚ),
      AssemblyBasedEstimator.loadFunction fmt (func, A.functionValue fmt func) =
        some (func, bbEnergies) ∧
      bbEnergies.Perm ((A.allEnergies func).entries.map fun e => (e.1, e.2.energy)) := by
  have hload : ∀ e ∈ (A.allEnergies func).entries,
      AssemblyBasedEstimator.loadBlock fmt (e.1, blockValue fmt e.2) =
        some (e.1, e.2.energy) := by
    intro e he
    have hget := (get?_pair (v := .float (fmt.lexeme e.2.energy))
      (w := .unsigned e.2.instructionCount) (show "energy" ≠ "instruction_count" by decide)).1
    simp only [AssemblyBasedEstimator.loadBlock, blockValue, hget,
      AssemblyBasedEstimator.getDouble, Option.map_some, hfmt func hfunc e he]
  obtain ⟨bbEnergies, hread, hperm⟩ := Value.mapM_items_object
    (m := fun e : Sigma fun _ : String => BlockEnergy => (e.1, blockValue fmt e.2))
    (A.allEnergies func).keys_nodup hload
  refine ⟨bbEnergies, ?_, hperm⟩
  have hget := (get?_pair (v := .unsigned (A.bbCount func))
    (w := .object ((A.allEnergies func).entries.map fun e => (e.1, blockValue fmt e.2)))
    (show "bb_count" ≠ "bb_energy" by decide)).2
  rw [AssemblyBasedEstimator.loadFunction, functionValue, hget, Option.bind_eq_bind,
    Option.bind_some, hread]
  rfl

/-- **The estimator reads the energies of the output.** -/
theorem loadEnergyData_output (hnodup : (A.bbMapping.map Prod.fst).Nodup)
    (hfmt : A.ReadsEnergies fmt) : ∃ E,
      AssemblyBasedEstimator.loadEnergyData fmt (A.output fmt) = some E ∧
      ∀ func ∈ A.outputFunctions, ∃ bbEnergies, E.functionEnergy.lookup func = some bbEnergies ∧
        ∀ name, bbEnergies.lookup name =
          ((A.allEnergies func).lookup name).map BlockEnergy.energy := by
  choose! bbEnergies hread hperm using loadFunction_member hfmt
  have houtput := nodup_outputFunctions hnodup
  obtain ⟨functionEnergy, hfunctions, hfperm⟩ := Value.mapM_items_object (l := A.outputFunctions)
    (m := fun func => (func, A.functionValue fmt func))
    (f := AssemblyBasedEstimator.loadFunction fmt) (g := fun func => (func, bbEnergies func))
    (by simpa using houtput) hread
  set functions := Value.object (A.outputFunctions.map fun func => (func, A.functionValue fmt func))
    with hdef
  have hget : (A.output fmt).get? "functions" = some functions :=
    (Value.get?_object (by simp)).mpr (by simp [hdef])
  -- every function has `bb_energy`
  have hall : ∀ func ∈ functions.items, (func.2.get? "bb_energy").isSome = true := by
    intro func hfunc
    have hmem := (Value.items_object_perm
      (by simpa [Function.comp_def] using houtput)).mem_iff.mp hfunc
    obtain ⟨name, -, rfl⟩ := List.mem_map.mp hmem
    rw [functionValue, (get?_pair (show "bb_count" ≠ "bb_energy" by decide)).2, Option.isSome_some]
  have hnames : (functionEnergy.map Prod.fst).Nodup := by
    rw [(hfperm.map Prod.fst).nodup_iff, List.map_map]
    simpa [Function.comp_def] using houtput
  refine ⟨⟨functionEnergy⟩, ?_, fun func hfunc => ⟨bbEnergies func, ?_, fun name => ?_⟩⟩
  · rw [AssemblyBasedEstimator.loadEnergyData, hget, Option.bind_eq_bind, Option.bind_some,
      List.filter_eq_self.mpr hall, hfunctions]
    rfl
  · exact (lookup_eq_some hnames).mpr (hfperm.mem_iff.mpr
      (List.mem_map_of_mem (f := fun func => (func, bbEnergies func)) hfunc))
  · have hkeys : ((bbEnergies func).map Prod.fst).Nodup := by
      rw [((hperm func hfunc).map Prod.fst).nodup_iff, List.map_map]
      exact (A.allEnergies func).keys_nodup
    ext q
    rw [lookup_eq_some hkeys, (hperm func hfunc).mem_iff, List.mem_map, Option.map_eq_some_iff]
    constructor
    · rintro ⟨e, he, heq⟩
      obtain ⟨rfl, rfl⟩ := Prod.mk.inj heq
      exact ⟨e.2, AList.mem_lookup_iff.mpr he, rfl⟩
    · rintro ⟨e, he, rfl⟩
      exact ⟨⟨name, e⟩, AList.mem_lookup_iff.mp he, rfl⟩

/-- **The estimate of a block** is what is charged to it. -/
theorem estimate_eq {M : IRModule} (hsort : SortsByAddress A.sort)
    (hcompiled : Compiled (labelModule M) A.obj) (hmapping : IsMapping M A.bbMapping)
    (hfree : ∀ F ∈ M.definitions, F.NumbersFree) (hfmt : A.ReadsEnergies fmt) :
    ∃ E, AssemblyBasedEstimator.loadEnergyData fmt (A.output fmt) = some E ∧
      ∀ F ∈ M.definitions, ∀ idx < F.blocks.length, E.estimate F idx =
        ⟨(A.ownEnergy F.name (idx + 1)).energy, "assembly-lookup"⟩ := by
  obtain ⟨E, hload, hE⟩ := loadEnergyData_output hmapping.nodup hfmt
  refine ⟨E, hload, fun F hF idx hidx => ?_⟩
  have hfunc : F.name ∈ A.outputFunctions := by
    obtain ⟨entries, hentries⟩ := hmapping.complete F hF
    rw [outputFunctions, List.mem_append, List.mem_filter]
    by_cases h : F.name ∈ A.functions
    · exact .inl h
    · exact .inr ⟨List.mem_map.mpr ⟨_, hentries, rfl⟩, by simpa using h⟩
  obtain ⟨bbEnergies, hlookup, hnames⟩ := hE F.name hfunc
  simp only [AssemblyBasedEstimator.estimate, hlookup, hnames,
    lookup_allEnergies hmapping hF hsort hcompiled (hfree F hF) hidx, Option.map_some]

/-! ### All energies -/

/-- The instructions in some ranges, each as often as it is in a range. -/
theorem sum_inRanges (ranges : List AddressRange) (f : Listed → ℚ) :
    ((A.inRanges ranges).map f).sum = (A.instructions.map fun l => ((ranges.filter fun range =>
      range.start ≤ l.instr.address ∧ l.instr.address < range.stop).length : ℚ) * f l).sum := by
  induction ranges with
  | nil => simp [inRanges]
  | cons range ranges ih =>
    have hrange := List.sum_map_ite (fun l : Listed => range.start ≤ l.instr.address ∧
      l.instr.address < range.stop) f (fun _ => 0) A.instructions
    rw [List.map_const', List.sum_replicate, smul_zero, add_zero] at hrange
    rw [inRanges, List.flatMap_cons, List.map_append, List.sum_append, ← inRanges, ih, ← hrange,
      ← List.sum_map_add]
    refine congrArg List.sum (List.map_congr_left fun l _ => ?_)
    rw [List.filter_cons]
    by_cases hin : range.start ≤ l.instr.address ∧ l.instr.address < range.stop
    · rw [if_pos hin, if_pos (by simpa using hin), List.length_cons]
      push_cast
      ring
    · rw [if_neg hin, if_neg (by simpa using hin), zero_add]

theorem sum_charged (func : String) (bb : ℕ) (f : Listed → ℚ) :
    ((A.charged func bb).map f).sum = (A.instructions.map fun l =>
      (chargeCount A.bbMaps func bb l.instr.address : ℚ) * f l).sum := by
  cases hm : A.bbMaps func with
  | none => simp [charged, chargeCount, hm]
  | some m => simp only [charged, chargeCount, hm, Option.map_some, Option.getD_some, sum_inRanges]

/-- Of numbers up to one only one is not zero. -/
theorem sum_of_unique {β : Type*} {l : List β} {f : β → ℕ} (hl : l.Nodup) (hone : ∀ b, f b ≤ 1)
    (hunique : ∀ b c, 0 < f b → 0 < f c → b = c) :
    (l.map f).sum = if ∃ b ∈ l, 0 < f b then 1 else 0 := by
  induction l with
  | nil => simp
  | cons b l ih =>
    obtain ⟨hb, hl⟩ := List.nodup_cons.mp hl
    rw [List.map_cons, List.sum_cons, ih hl]
    by_cases hpos : 0 < f b
    · have hrest : ¬∃ c ∈ l, 0 < f c := fun ⟨c, hc, hcpos⟩ => hb (hunique b c hpos hcpos ▸ hc)
      have := hone b
      rw [if_neg hrest, if_pos ⟨b, List.mem_cons_self .., hpos⟩]
      omega
    · have hzero : f b = 0 := Nat.eq_zero_of_not_pos hpos
      simp [hzero]

/-- The instructions are those of the object file. -/
theorem exists_instruction {l : Listed} (hl : l ∈ A.instructions) :
    ∃ i ∈ A.obj.instructions, i.address = l.instr.address := by
  have hlisted : ∀ (is before : List Instruction), l ∈ listedFrom before is → l.instr ∈ is := by
    intro is
    induction is with
    | nil => simp [listedFrom]
    | cons i is ih =>
      intro before h
      rcases List.mem_cons.mp h with rfl | h
      · exact List.mem_cons_self ..
      · exact List.mem_cons_of_mem _ (ih _ h)
  obtain ⟨i, hi, heq⟩ := List.mem_map.mp (hlisted _ _ hl)
  refine ⟨i, hi, ?_⟩
  rw [← heq, resolveCallTarget]
  split_ifs
  · split <;> rfl
  · rfl

theorem isMapped_iff (hsort : SortsByAddress A.sort) {M : IRModule}
    (hcompiled : Compiled (labelModule M) A.obj) (l : Listed) :
    A.isMapped l = true ↔ ∃ func bb, 0 < chargeCount A.bbMaps func bb l.instr.address := by
  rw [isMapped, List.any_eq_true]
  constructor
  · rintro ⟨func, -, h⟩
    cases hm : A.bbMaps func with
    | none => simp [hm] at h
    | some m =>
      rw [hm, Option.map_some, Option.getD_some, List.any_eq_true] at h
      obtain ⟨bb, -, h⟩ := h
      obtain ⟨range, hrange, hin⟩ := List.any_eq_true.mp h
      refine ⟨func, bb, ?_⟩
      simp only [chargeCount, hm]
      exact List.length_pos_of_mem (List.mem_filter.mpr ⟨hrange, by simpa using hin⟩)
  · rintro ⟨func, bb, h⟩
    cases hm : A.bbMaps func with
    | none => simp [chargeCount, hm] at h
    | some m =>
      simp only [chargeCount, hm] at h
      obtain ⟨range, hrange⟩ := List.exists_mem_of_length_pos h
      obtain ⟨hmem, hin⟩ := List.mem_filter.mp hrange
      have hbb : m bb ≠ [] := List.ne_nil_of_mem hmem
      obtain ⟨fr, hfr, hvalue, -⟩ := line_of_ranges hsort A.obj hm hbb
      have hfunc : func ∈ A.functions := List.mem_filter.mpr
        ⟨List.mem_dedup.mpr (List.mem_map.mpr ⟨fr, hfr, hvalue⟩), by simp [hm]⟩
      refine ⟨func, hfunc, ?_⟩
      rw [hm, Option.map_some, Option.getD_some, List.any_eq_true]
      exact ⟨bb, (mem_blocks hsort hcompiled hm).mpr hbb,
        List.any_eq_true.mpr ⟨range, hmem, by simpa using hin⟩⟩

/-- **Every mapped instruction is charged to one block of the module**, once. -/
theorem sum_chargeCount (hsort : SortsByAddress A.sort) {M : IRModule}
    (hcompiled : Compiled (labelModule M) A.obj) {l : Listed} (hl : l ∈ A.instructions) :
    (M.blockNumbers.map fun b => chargeCount A.bbMaps b.1 b.2 l.instr.address).sum =
      if A.isMapped l = true then 1 else 0 := by
  obtain ⟨i, hi, haddress⟩ := exists_instruction hl
  obtain ⟨hone, hunique⟩ := charged_once hsort A.obj
  rw [← haddress, sum_of_unique (f := fun b : String × ℕ => chargeCount A.bbMaps b.1 b.2 i.address)
    (nodup_blockNumbers M) (fun b => hone b.1 b.2 i.address)
    fun b c hb hc => Prod.ext_iff.mpr (hunique i hi _ _ _ _ hb hc)]
  refine if_congr ?_ rfl rfl
  rw [isMapped_iff hsort hcompiled, ← haddress]
  refine ⟨fun ⟨b, _, hb⟩ => ⟨b.1, b.2, hb⟩, fun ⟨func, bb, h⟩ => ⟨(func, bb), ?_, h⟩⟩
  -- a block that is charged has a range
  cases hm : A.bbMaps func with
  | none => simp [chargeCount, hm] at h
  | some m =>
    simp only [chargeCount, hm] at h
    obtain ⟨range, hrange⟩ := List.exists_mem_of_length_pos h
    obtain ⟨F, hF, hname, idx, hidx, rfl⟩ :=
      hcompiled.block hsort hm (List.ne_nil_of_mem (List.mem_filter.mp hrange).1)
    exact mem_blockNumbers.mpr ⟨F, hF, idx, hidx, by rw [hname]⟩

/-- **What is charged to the blocks and what is not mapped make up the listing.** -/
theorem sum_charged_add_unmapped (hsort : SortsByAddress A.sort) {M : IRModule}
    (hcompiled : Compiled (labelModule M) A.obj) (f : Listed → ℚ) :
    (M.blockNumbers.map fun b => ((A.charged b.1 b.2).map f).sum).sum + (A.unmapped.map f).sum =
      (A.instructions.map f).sum := by
  have hmapped : (M.blockNumbers.map fun b => ((A.charged b.1 b.2).map f).sum).sum =
      (A.instructions.map fun l => if A.isMapped l = true then f l else 0).sum := by
    have hswap := Multiset.sum_map_sum_map (M.blockNumbers : Multiset (String × ℕ))
      (A.instructions : Multiset Listed)
      (f := fun b l => (chargeCount A.bbMaps b.1 b.2 l.instr.address : ℚ) * f l)
    simp only [Multiset.map_coe, Multiset.sum_coe] at hswap
    simp only [sum_charged]
    rw [hswap]
    refine congrArg List.sum (List.map_congr_left fun l hl => ?_)
    have hcount := congrArg (Nat.cast (R := ℚ)) (sum_chargeCount hsort hcompiled hl)
    rw [Nat.cast_list_sum, List.map_map] at hcount
    rw [List.sum_map_mul_right]
    refine (congrArg (· * f l) hcount).trans ?_
    split_ifs <;> simp
  have hunmapped := List.sum_map_ite (fun l : Listed => A.isMapped l = true) f (fun _ => 0)
    A.instructions
  have hall := List.sum_map_ite (fun l : Listed => A.isMapped l = true) f f A.instructions
  simp only [ite_self] at hall
  rw [List.map_const', List.sum_replicate, smul_zero, add_zero] at hunmapped
  rw [hmapped, hunmapped, hall, unmapped]
  simp

/-- An instruction that is charged to a block is the one whose row names the block. -/
theorem lineNames_of_mem_charged (hsort : SortsByAddress A.sort) {s : TextSection}
    (hobj : A.obj = [s]) {func : String} {bb : ℕ} {l : Listed} (hl : l ∈ A.charged func bb) :
    s.LineNames l.instr.address func bb := by
  cases hm : A.bbMaps func with
  | none => simp [charged, hm] at hl
  | some m =>
    rw [charged, hm, Option.map_some, Option.getD_some] at hl
    obtain ⟨range, hrange, hl⟩ := List.mem_flatMap.mp hl
    obtain ⟨hl, hin⟩ := List.mem_filter.mp hl
    obtain ⟨i, hi, haddress⟩ := exists_instruction hl
    have hcharged : 0 < chargeCount A.bbMaps func bb l.instr.address := by
      simp only [chargeCount, hm]
      exact List.length_pos_of_mem (List.mem_filter.mpr ⟨hrange, hin⟩)
    rw [hobj, ObjectFile.instructions, List.flatMap_singleton] at hi
    rw [bbMaps, hobj] at hcharged
    exact lineNames_of_charged hsort s (haddress ▸ lt_maxAddr hi) hcharged

theorem sum_definitions (M : IRModule) (f : String → ℕ → ℚ) :
    (M.definitions.map fun F =>
      ((List.range F.blocks.length).map fun idx => f F.name (idx + 1)).sum).sum =
      (M.blockNumbers.map fun b => f b.1 b.2).sum := by
  rw [IRModule.blockNumbers, List.map_flatMap, List.flatMap_def, List.sum_flatten]
  simp only [List.map_map, Function.comp_def]

/-- **The estimates of all blocks make up the energy of all instructions.** The analyzer reads the
mapping of a module and the object file that its labels were compiled to, and the estimator what
the analyzer writes. Then every block has an estimate of its own, the energy of the instructions
whose rows name the block, and the estimates and the unmapped energy add up to the energy of the
whole listing and what the mapped instructions pay for the stack. -/
theorem estimates_make_up_energy {M M' : IRModule} {mapping : Value}
    (hrun : AssignBBDebugInfoPass.run M = (M', some mapping))
    (hload : loadBBMapping mapping = some A.bbMapping) (hcompiled : Compiled M' A.obj)
    (hsort : SortsByAddress A.sort) (hfree : ∀ F ∈ M.definitions, F.NumbersFree) {data : Value}
    (hdata : A.main fmt = some data) (hfmt : A.ReadsEnergies fmt) :
    ∃ E, AssemblyBasedEstimator.loadEnergyData fmt data = some E ∧
      (∀ F ∈ M.definitions, ∀ idx < F.blocks.length,
        E.estimate F idx = ⟨((A.charged F.name (idx + 1)).map (A.cost (A.usesFP F.name))).sum,
          "assembly-lookup"⟩ ∧
        ∀ s, A.obj = [s] → ∀ l ∈ A.charged F.name (idx + 1),
          s.LineNames l.instr.address F.name (idx + 1)) ∧
      (M.definitions.map fun F =>
        ((List.range F.blocks.length).map fun idx => (E.estimate F idx).cost).sum).sum +
          A.unmappedEnergy =
        (A.instructions.map fun l => (A.query l).energy).sum +
          (M.blockNumbers.map fun b =>
            ((A.charged b.1 b.2).map (A.stackEnergy (A.usesFP b.1))).sum).sum := by
  rw [AssignBBDebugInfoPass.run] at hrun
  split_ifs at hrun with hempty
  · cases hrun
  obtain ⟨rfl, heq⟩ := Prod.mk.inj hrun
  obtain rfl := Option.some.inj heq
  obtain ⟨functions, hread, hmapping⟩ := loadBBMapping_run M
  obtain rfl := Option.some.inj (hread.symm.trans hload)
  rw [main] at hdata
  split_ifs at hdata
  obtain rfl := Option.some.inj hdata
  obtain ⟨E, hE, hestimate⟩ := estimate_eq hsort hcompiled hmapping hfree hfmt
  refine ⟨E, hE, fun F hF idx hidx => ⟨hestimate F hF idx hidx, fun s hobj l hl =>
    lineNames_of_mem_charged hsort hobj hl⟩, ?_⟩
  have hblocks : (M.definitions.map fun F =>
      ((List.range F.blocks.length).map fun idx => (E.estimate F idx).cost).sum).sum =
      (M.blockNumbers.map fun b => (A.ownEnergy b.1 b.2).energy).sum := by
    rw [← sum_definitions M fun func bb => (A.ownEnergy func bb).energy]
    refine congrArg List.sum (List.map_congr_left fun F hF => ?_)
    refine congrArg List.sum (List.map_congr_left fun idx hidx => ?_)
    rw [hestimate F hF idx (List.mem_range.mp hidx)]
  have hown : ∀ b : String × ℕ, (A.ownEnergy b.1 b.2).energy =
      ((A.charged b.1 b.2).map fun l => (A.query l).energy).sum +
        ((A.charged b.1 b.2).map (A.stackEnergy (A.usesFP b.1))).sum :=
    fun b => List.sum_map_add
  simp only [hown] at hblocks
  rw [List.sum_map_add] at hblocks
  have hlisting := sum_charged_add_unmapped hsort hcompiled fun l => (A.query l).energy
  rw [hblocks, ← hlisting, unmappedEnergy]
  ring

/-! ### Keys -/

/-- The analyzer with another model. -/
def withModel (A : Analyzer) (model : EnergyModel) : Analyzer := { A with model := model }

theorem mem_instructions_of_inRanges {ranges : List AddressRange} {l : Listed}
    (hl : l ∈ A.inRanges ranges) : l ∈ A.instructions := by
  obtain ⟨range, -, hl⟩ := List.mem_flatMap.mp hl
  exact List.mem_of_mem_filter hl

/-- The model is asked for every instruction of the listing, and for no others. -/
theorem mem_queried {l : Listed} : l ∈ A.queried ↔ l ∈ A.instructions := by
  rw [queried, List.mem_append]
  constructor
  · rintro (hl | hl)
    · obtain ⟨func, -, hl⟩ := List.mem_flatMap.mp hl
      cases hm : A.bbMaps func with
      | none => simp [hm] at hl
      | some m =>
        rw [hm, Option.map_some, Option.getD_some] at hl
        obtain ⟨bb, -, hl⟩ := List.mem_flatMap.mp hl
        exact mem_instructions_of_inRanges hl
    · exact List.mem_of_mem_filter hl
  · intro hl
    by_cases hmapped : A.isMapped l = true
    · left
      obtain ⟨func, hfunc, h⟩ := List.any_eq_true.mp hmapped
      refine List.mem_flatMap.mpr ⟨func, hfunc, ?_⟩
      cases hm : A.bbMaps func with
      | none => simp [hm] at h
      | some m =>
        rw [hm, Option.map_some, Option.getD_some, List.any_eq_true] at h
        obtain ⟨bb, hbb, h⟩ := h
        obtain ⟨range, hrange, h⟩ := List.any_eq_true.mp h
        exact List.mem_flatMap.mpr ⟨bb, hbb, List.mem_flatMap.mpr
          ⟨range, hrange, List.mem_filter.mpr ⟨hl, by simpa using h⟩⟩⟩
    · exact .inr (List.mem_filter.mpr ⟨hl, by simpa using hmapped⟩)

theorem mem_requiredParameters {key : String} : key ∈ A.requiredParameters ↔
    ∃ l ∈ A.instructions, key ∈ (A.query l).requiredKeys := by
  simp only [requiredParameters, keySet, List.mem_mergeSort, List.mem_dedup, List.mem_flatMap,
    mem_queried]

theorem mem_missingParameters {key : String} : key ∈ A.missingParameters ↔
    ∃ l ∈ A.instructions, key ∈ (A.query l).missingKeys := by
  simp only [missingParameters, keySet, List.mem_mergeSort, List.mem_dedup, List.mem_flatMap,
    mem_queried]

private theorem missing_spec (A : Analyzer) {key : String} (h : key ∈ A.missingParameters) :
    key ∈ A.requiredParameters ∧ A.model.costs key = none := by
  obtain ⟨l, hl, hkey⟩ := mem_missingParameters.mp h
  obtain ⟨hrequired, hnone⟩ := A.model.reports_query A.UnknownCopySize l key hkey
  exact ⟨mem_requiredParameters.mpr ⟨l, hl, hrequired⟩, hnone⟩

/-- The output depends on the answers of the model only. -/
theorem output_withModel {model : EnergyModel}
    (h : ∀ l ∈ A.instructions, (A.withModel model).query l = A.query l) (fmt : DoubleFormat) :
    (A.withModel model).output fmt = A.output fmt := by
  have hblock : ∀ m, (A.withModel model).blockEnergy m = A.blockEnergy m := by
    intro m
    funext bb
    refine congrArg (BlockEnergy.mk · (A.inRanges (m bb)).length) (congrArg List.sum
      (List.map_congr_left fun l hl => ?_))
    exact congrArg (Query.energy · + A.stackEnergy (A.fpIsR4 m) l)
      (h l (mem_instructions_of_inRanges hl))
  have hbb : (A.withModel model).bbEnergies = A.bbEnergies := by
    funext func m
    change (A.blocks m).foldl (fun (es : BlockEnergies) bb =>
      es.insert (A.bbName func bb) ((A.withModel model).blockEnergy m bb)) ∅ = _
    rw [hblock]
    rfl
  have hall : (A.withModel model).allEnergies = A.allEnergies := by
    funext func
    change (((A.bbMapping.lookup func).getD []).map Prod.snd).foldl addMissing
      (((A.bbMaps func).map ((A.withModel model).bbEnergies func)).getD ∅) = _
    rw [hbb]
    rfl
  have hunmapped : (A.withModel model).unmappedEnergy = A.unmappedEnergy :=
    congrArg List.sum (List.map_congr_left fun l hl =>
      congrArg Query.energy (h l (List.mem_of_mem_filter hl)))
  have hkeys : ∀ keys : Query → List String,
      ((A.withModel model).queried.flatMap fun l => keys ((A.withModel model).query l)) =
        A.queried.flatMap fun l => keys (A.query l) := fun keys =>
    List.flatMap_congr fun l hl => congrArg keys (h l (mem_queried.mp hl))
  have hrequired : (A.withModel model).requiredParameters = A.requiredParameters :=
    congrArg keySet (hkeys Query.requiredKeys)
  have hmissing : (A.withModel model).missingParameters = A.missingParameters :=
    congrArg keySet (hkeys Query.missingKeys)
  simp only [output, functionValue, bbCount, hall, hunmapped, hrequired, hmissing]
  rfl

/-- **The reported keys suffice.** A missing key is one of the required ones, and the model has no
cost for it. With no key missing, the output is the same for any default. And a model with a cost
for every required key has the same required keys, and none of them is missing. -/
theorem reported_keys_suffice (A : Analyzer) (fmt : DoubleFormat) :
    (∀ key ∈ A.missingParameters, key ∈ A.requiredParameters ∧ A.model.costs key = none) ∧
    (A.missingParameters = [] → ∀ e,
      (A.withModel (A.model.withDefault e)).output fmt = A.output fmt) ∧
    ∀ costs : String → Option ℚ, (∀ key ∈ A.requiredParameters, (costs key).isSome = true) →
      (A.withModel { A.model with costs := costs }).requiredParameters = A.requiredParameters ∧
        (A.withModel { A.model with costs := costs }).missingParameters = [] := by

  refine ⟨fun key hkey => missing_spec A hkey, fun hnone e => output_withModel (fun l hl => ?_) fmt,
    fun costs hcosts => ?_⟩
  · refine EnergyModel.query_withDefault (List.eq_nil_iff_forall_not_mem.mpr fun key hkey => ?_) e
    have hmem := mem_missingParameters.mpr ⟨l, hl, hkey⟩
    rw [hnone] at hmem
    cases hmem
  · have hrequired : (A.withModel { A.model with costs := costs }).requiredParameters =
        A.requiredParameters :=
      congrArg keySet (List.flatMap_congr fun l _ => EnergyModel.requiredKeys_query
        (show ({ A.model with costs := costs } : EnergyModel).ignoredCallTargets =
          A.model.ignoredCallTargets from rfl) _ l)
    refine ⟨hrequired, List.eq_nil_iff_forall_not_mem.mpr fun key hkey => ?_⟩
    obtain ⟨hmem, hnone⟩ := missing_spec _ hkey
    have hsome := hcosts key (hrequired ▸ hmem)
    rw [show costs key = none from hnone] at hsome
    cases hsome

end Analyzer

/-! ### A function that copies eight bytes -/

/-- The last block has no code. -/
def copyFunction : IRFunction where
  name := "copy"
  blocks := [⟨some "entry", [⟨false, none, false⟩, ⟨false, none, false⟩]⟩,
    ⟨none, [⟨true, none, false⟩, ⟨false, none, true⟩]⟩, ⟨some "exit", [⟨false, none, false⟩]⟩]
  names_nodup := by decide

def copyModule : IRModule where
  functions := [copyFunction]
  functions_nodup := by decide

/-- The row of the call is not mapped. -/
def copyObject : ObjectFile :=
  [⟨".text", [(0, "copy")],
    [⟨0, 4, "mov", "#8,\tr14", "immediate_register", ⟨"", none⟩⟩,
      ⟨4, 4, "call", "#0", "immediate", ⟨"memcpy", none⟩⟩, ⟨8, 2, "ret", "", "", ⟨"", none⟩⟩],
    [⟨0, 1⟩, ⟨4, 0⟩, ⟨8, 2⟩]⟩]

def copyAnalyzer : Analyzer where
  InputELF := "copy.o"
  obj := copyObject
  sort := sortByAddress
  model :=
    { costs := fun key => [("mov_immediate_register", 2), ("call_memcpy", 5),
        ("call_memcpy_bytes", 1), ("ret", 4)].lookup key }
  bbMapping := [("copy", [("1", "entry"), ("2", "bb1"), ("3", "exit")])]
  StackAccessPenalty := 1

/-- The three energies of the output. -/
def copyFormat : Analyzer.DoubleFormat where
  lexeme e := if e = 16 then "16.0" else if e = 5 then "5.0" else "0.0"
  value s := if s = "16.0" then 16 else if s = "5.0" then 5 else 0

private theorem parseFunctionRanges_copyObject :
    parseFunctionRanges copyObject = [⟨0, 12, "copy"⟩] := by
  have hsorted : funcStarts copyObject.labels = copyObject.labels := by
    rw [funcStarts]
    exact List.mergeSort_of_pairwise (by decide)
  rw [parseFunctionRanges, hsorted]
  rfl

private theorem loadBBMapping_copyModule :
    loadBBMapping (bbMapping copyModule) = some copyAnalyzer.bbMapping := by
  have hnumbers : copyFunction.numbers = [("1", "entry"), ("2", "bb1"), ("3", "exit")] := by
    decide +kernel
  have hfunction : loadFuncMapping ("copy", funcMapping copyFunction) =
      some ("copy", [("1", "entry"), ("2", "bb1"), ("3", "exit")]) := by
    rw [loadFuncMapping, funcMapping, hnumbers,
      Value.items_object_of_sorted (by decide) (by decide)]
    rfl
  have hitems : (bbMapping copyModule).items = [("copy", funcMapping copyFunction)] :=
    Value.items_object_of_sorted (by simp [IRModule.definitions, copyModule, copyFunction,
      IRFunction.isDeclaration]) (List.pairwise_singleton ..)
  rw [loadBBMapping, hitems, List.mapM_cons, List.mapM_nil, hfunction]
  rfl

private theorem compiled_copyObject : Compiled (labelModule copyModule) copyObject := by
  have hlines : copyObject.lines = [⟨0, 1⟩, ⟨4, 0⟩, ⟨8, 2⟩] := rfl
  constructor
  · intro fr hfr e he _ _ hne
    rw [parseFunctionRanges_copyObject] at hfr
    obtain rfl := List.mem_singleton.mp hfr
    rw [hlines, List.mem_cons, List.mem_cons, List.mem_singleton] at he
    refine ⟨labelFunction copyFunction, List.mem_singleton_self _, rfl, ?_⟩
    rcases he with rfl | rfl | rfl
    · exact ⟨_, List.mem_cons_self .., _, List.mem_cons_self .., rfl, rfl⟩
    · exact absurd rfl hne
    · exact ⟨_, List.mem_cons_of_mem _ (List.mem_cons_self ..), _,
        List.mem_cons_of_mem _ (List.mem_cons_self ..), rfl, rfl⟩
  · intro fr hfr _
    rw [parseFunctionRanges_copyObject] at hfr
    obtain rfl := List.mem_singleton.mp hfr
    exact ⟨⟨0, 1⟩, by simp [hlines], by decide, by decide, by decide⟩

/-- The estimates of the three blocks: the move and the copy with its accesses, the return, and
nothing. -/
theorem estimates_make_up_energy_copy : ∃ E,
    AssemblyBasedEstimator.loadEnergyData copyFormat (copyAnalyzer.output copyFormat) = some E ∧
      E.estimate copyFunction 0 = ⟨16, "assembly-lookup"⟩ ∧
      E.estimate copyFunction 1 = ⟨5, "assembly-lookup"⟩ ∧
      E.estimate copyFunction 2 = ⟨0, "assembly-lookup"⟩ := by
  have hmain : copyAnalyzer.main copyFormat = some (copyAnalyzer.output copyFormat) := by
    rw [Analyzer.main, if_neg]
    rintro (h | h | h)
    · exact absurd (congrArg List.length h) (by decide +kernel)
    · exact absurd (congrArg List.length h) (by decide +kernel)
    · exact absurd (congrArg List.length h) (by decide +kernel)
  have hfree : ∀ F ∈ copyModule.definitions, F.NumbersFree := by
    intro F hF idx hidx
    obtain rfl := List.mem_singleton.mp (show F ∈ [copyFunction] from hF)
    -- only the second block has no name
    have hone : idx = 1 := by
      rcases idx with _ | _ | _ | idx
      · cases hidx
      · rfl
      · cases hidx
      · cases hidx
    subst hone
    decide
  have hfmt : copyAnalyzer.ReadsEnergies copyFormat := by
    intro func hfunc
    have hfunctions : copyAnalyzer.outputFunctions = ["copy"] := by decide +kernel
    rw [hfunctions] at hfunc
    obtain rfl := List.mem_singleton.mp hfunc
    decide +kernel
  obtain ⟨E, hE, hblocks, -⟩ := Analyzer.estimates_make_up_energy (M := copyModule) rfl
    loadBBMapping_copyModule compiled_copyObject sortByAddress_sorts hfree hmain hfmt
  have hblock := fun idx hidx => (hblocks copyFunction (List.mem_singleton_self _) idx hidx).1
  refine ⟨E, hE, (hblock 0 (by decide)).trans ?_, (hblock 1 (by decide)).trans ?_,
    (hblock 2 (by decide)).trans ?_⟩
  · decide +kernel
  · decide +kernel
  · decide +kernel

/-- The default does not count for the function. -/
theorem reported_keys_suffice_copy : ∀ e,
    (copyAnalyzer.withModel (copyAnalyzer.model.withDefault e)).output copyFormat =
      copyAnalyzer.output copyFormat :=
  (Analyzer.reported_keys_suffice copyAnalyzer copyFormat).2.1 (by decide +kernel)

end Bao.Energy
