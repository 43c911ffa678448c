import Mathlib
import Bao.Text.Json
import Bao.Energy.Attribution

/-!
# Block labels

`AssignBBDebugInfoPass` gives all instructions of a basic block one debug location, whose line is
the number of the block, from one up. It writes down which name goes with which number
(`-bb-mapping`), and the analyzer reads that back (`loadBBMapping`): the line table of the object
file then names blocks.

The library that writes the mapping is the one that reads it, so a file is modelled by its value.

* **What is read back** (`loadBBMapping_run`): the functions with a body, and for each of them the
  names of its blocks under their numbers.
* **What the line table names** (`Compiled.block`): if its rows come from the labels, the blocks
  with a range are blocks of the module.
-/

namespace Bao.Energy

open Text Json Addressing

/-! ### Functions -/

/-- A debug location; the column is always zero. -/
structure DebugLoc where
  subprogram : String
  line : ℕ
  deriving DecidableEq

structure IRInstruction where
  isPHI : Bool
  debugLoc : Option DebugLoc
  /-- `!llvm.loop` -/
  loopMetadata : Bool

structure IRBlock where
  name : Option String
  instructions : List IRInstruction

/-- A function with its blocks; a declaration has none. -/
structure IRFunction where
  name : String
  blocks : List IRBlock
  names_nodup : (blocks.filterMap IRBlock.name).Nodup

structure IRModule where
  functions : List IRFunction
  functions_nodup : (functions.map IRFunction.name).Nodup

def IRFunction.isDeclaration (F : IRFunction) : Bool := F.blocks.isEmpty

/-- The functions with a body. -/
def IRModule.definitions (M : IRModule) : List IRFunction :=
  M.functions.filter fun F => !F.isDeclaration

/-- The blocks of a module by function and number. -/
def IRModule.blockNumbers (M : IRModule) : List (String × ℕ) :=
  M.definitions.flatMap fun F => (List.range F.blocks.length).map fun idx => (F.name, idx + 1)

/-- **`getBlockName`**, the name of the block at a place. -/
def IRFunction.getBlockName (F : IRFunction) (idx : ℕ) : String :=
  (F.blocks[idx]?.bind IRBlock.name).getD ("bb" ++ toString idx)

/-- No block has the name that stands for a block without one. -/
def IRFunction.NumbersFree (F : IRFunction) : Prop :=
  ∀ idx : ℕ, F.blocks[idx]?.map IRBlock.name = some none →
    ∀ b ∈ F.blocks, b.name ≠ some ("bb" ++ toString idx)

/-! ### The pass -/

/-- A PHI keeps its location: it has no code of its own. -/
def labelInstruction (loc : DebugLoc) (I : IRInstruction) : IRInstruction :=
  if I.isPHI then I else { I with debugLoc := some loc, loopMetadata := false }

/-- The instructions of the block with the number `BBIndex`. -/
def labelBlock (func : String) (b : IRBlock) (BBIndex : ℕ) : IRBlock :=
  { b with instructions := b.instructions.map (labelInstruction ⟨func, BBIndex⟩) }

/-- Line zero is for unmapped code, so the first block has the number one. -/
def labelBlocks (F : IRFunction) : List IRBlock :=
  F.blocks.zipIdx.map fun b => labelBlock F.name b.1 (b.2 + 1)

theorem map_name_labelBlocks (F : IRFunction) :
    (labelBlocks F).map IRBlock.name = F.blocks.map IRBlock.name := by
  have h : IRBlock.name ∘ (fun b : IRBlock × ℕ => labelBlock F.name b.1 (b.2 + 1)) =
      IRBlock.name ∘ Prod.fst := rfl
  rw [labelBlocks, List.map_map, h, ← List.map_map, List.zipIdx_map_fst]

def labelFunction (F : IRFunction) : IRFunction where
  name := F.name
  blocks := labelBlocks F
  names_nodup := by
    have h : ∀ bs : List IRBlock, bs.filterMap IRBlock.name =
        (bs.map IRBlock.name).filterMap id := fun bs => by rw [List.filterMap_map]; rfl
    rw [h, map_name_labelBlocks, ← h]
    exact F.names_nodup

def labelModule (M : IRModule) : IRModule where
  functions := M.functions.map labelFunction
  functions_nodup := by
    rw [List.map_map]
    exact M.functions_nodup

/-- The numbers of the blocks of a function, with their names. -/
def IRFunction.numbers (F : IRFunction) : List (String × String) :=
  F.blocks.zipIdx.map fun b => (toString (b.2 + 1), b.1.name.getD ("bb" ++ toString b.2))

/-- The mapping of a function. -/
def funcMapping (F : IRFunction) : Value :=
  .object (F.numbers.map fun n => (n.1, .string n.2))

def bbMapping (M : IRModule) : Value :=
  .object (M.definitions.map fun F => (F.name, funcMapping F))

/-- **`AssignBBDebugInfoPass::run`**: the labelled module, and the mapping if there is anything to
label. -/
def AssignBBDebugInfoPass.run (M : IRModule) : IRModule × Option Value :=
  if M.definitions = [] then (M, none) else (labelModule M, some (bbMapping M))

/-! ### The reader -/

/-- The number and the name of a block. -/
def loadBB : String × Value → Option (String × String)
  | (idx, .string bbName) => some (idx, bbName)
  | _ => none

/-- The numbers and names of one function. -/
def loadFuncMapping (member : String × Value) : Option (String × List (String × String)) :=
  (member.2.items.mapM loadBB).map fun entries => (member.1, entries)

/-- **`loadBBMapping`**; a function without entries does not show up. -/
def loadBBMapping (mapping : Value) : Option (List (String × List (String × String))) :=
  (mapping.items.mapM loadFuncMapping).map fun functions => functions.filter fun f => f.2 ≠ []

/-- What is read back of a module. -/
structure IsMapping (M : IRModule) (mapping : List (String × List (String × String))) : Prop where
  nodup : (mapping.map Prod.fst).Nodup
  mem : ∀ f ∈ mapping, ∃ F ∈ M.definitions, F.name = f.1 ∧ f.2.Perm F.numbers
  complete : ∀ F ∈ M.definitions, ∃ entries, (F.name, entries) ∈ mapping

namespace IRFunction

variable {F : IRFunction}

theorem getElem?_numbers (idx : ℕ) : F.numbers[idx]? =
    F.blocks[idx]?.map fun _ => (toString (idx + 1), F.getBlockName idx) := by
  rw [numbers, List.getElem?_map, List.getElem?_zipIdx, Option.map_map, zero_add]
  cases h : F.blocks[idx]? with
  | none => rfl
  | some b => simp [getBlockName, h]

theorem mem_numbers {n : String × String} : n ∈ F.numbers ↔
    ∃ idx < F.blocks.length, n = (toString (idx + 1), F.getBlockName idx) := by
  rw [List.mem_iff_getElem?]
  refine exists_congr fun idx => ?_
  rw [getElem?_numbers]
  by_cases hidx : idx < F.blocks.length
  · simp [hidx, eq_comm]
  · simp [hidx]

theorem nodup_numbers : (F.numbers.map Prod.fst).Nodup := by
  have hmap : F.numbers.map Prod.fst =
      (List.range F.blocks.length).map fun idx => toString (idx + 1) := by
    refine List.ext_getElem? fun idx => ?_
    rw [List.getElem?_map, getElem?_numbers, Option.map_map, List.getElem?_map]
    by_cases hidx : idx < F.blocks.length
    · simp [hidx]
    · simp [hidx]
  rw [hmap]
  refine List.nodup_range.map fun i j hij => ?_
  have h := Nat.repr_inj.mp hij
  omega

private theorem name_inj {i j : ℕ} (hi : i < F.blocks.length) (hj : j < F.blocks.length)
    {a : String} (hni : F.blocks[i].name = some a) (hnj : F.blocks[j].name = some a) : i = j := by
  have hpairs := List.pairwise_iff_getElem.mp (List.pairwise_filterMap.mp F.names_nodup)
  rcases Nat.lt_trichotomy i j with h | h | h
  · exact absurd rfl (hpairs i j hi hj h a hni a hnj)
  · exact h
  · exact absurd rfl (hpairs j i hj hi h a hnj a hni)

/-- **The names of the blocks of a function are distinct**, if no block has the number of another
one for its name. -/
theorem getBlockName_inj (h : F.NumbersFree) {i j : ℕ} (hi : i < F.blocks.length)
    (hj : j < F.blocks.length) (hij : F.getBlockName i = F.getBlockName j) : i = j := by
  rw [getBlockName, getBlockName, List.getElem?_eq_getElem hi, List.getElem?_eq_getElem hj,
    Option.bind_some, Option.bind_some] at hij
  have hfree : ∀ k (hk : k < F.blocks.length), F.blocks[k].name = none →
      ∀ b ∈ F.blocks, b.name ≠ some ("bb" ++ toString k) := fun k hk hname =>
    h k (by rw [List.getElem?_eq_getElem hk, Option.map_some, hname])
  rcases hni : F.blocks[i].name with _ | a <;> rcases hnj : F.blocks[j].name with _ | b <;>
    rw [hni, hnj] at hij
  · exact Nat.repr_inj.mp ((String.append_right_inj _).mp hij)
  · exact absurd (hnj.trans (congrArg some hij.symm)) (hfree i hi hni _ (List.getElem_mem hj))
  · exact absurd (hni.trans (congrArg some hij)) (hfree j hj hnj _ (List.getElem_mem hi))
  · exact name_inj hi hj hni (hnj.trans (congrArg some hij.symm))

end IRFunction

/-! ### What is read back -/

theorem nodup_definitions (M : IRModule) : (M.definitions.map IRFunction.name).Nodup :=
  M.functions_nodup.sublist (List.filter_sublist.map IRFunction.name)

theorem mem_blockNumbers {M : IRModule} {b : String × ℕ} : b ∈ M.blockNumbers ↔
    ∃ F ∈ M.definitions, ∃ idx < F.blocks.length, b = (F.name, idx + 1) := by
  simp [IRModule.blockNumbers, eq_comm]

theorem nodup_blockNumbers (M : IRModule) : M.blockNumbers.Nodup := by
  refine List.nodup_flatMap.mpr ⟨fun F _ => List.nodup_range.map fun i j hij => ?_, ?_⟩
  · simpa using hij
  · -- functions of different names have no block in common
    refine (List.pairwise_map.mp (nodup_definitions M)).imp fun hne b hb hb' => ?_
    obtain ⟨i, -, rfl⟩ := List.mem_map.mp hb
    obtain ⟨j, -, heq⟩ := List.mem_map.mp hb'
    exact hne (congrArg Prod.fst heq).symm

private theorem loadFuncMapping_member (F : IRFunction) : ∃ entries : List (String × String),
    loadFuncMapping (F.name, funcMapping F) = some (F.name, entries) ∧
      entries.Perm F.numbers := by
  obtain ⟨entries, hread, hperm⟩ := Value.mapM_items_object (l := F.numbers) (f := loadBB)
    (m := fun n => (n.1, .string n.2)) (g := id) F.nodup_numbers fun n _ => rfl
  rw [List.map_id] at hperm
  exact ⟨entries, by rw [loadFuncMapping, funcMapping, hread, Option.map_some], hperm⟩

/-- **The mapping is read back as it was written.** -/
theorem loadBBMapping_run (M : IRModule) : ∃ mapping,
    loadBBMapping (bbMapping M) = some mapping ∧ IsMapping M mapping := by
  choose entries hread hperm using loadFuncMapping_member
  obtain ⟨functions, hfunctions, hperm'⟩ := Value.mapM_items_object (l := M.definitions)
    (f := loadFuncMapping) (m := fun F => (F.name, funcMapping F))
    (g := fun F => (F.name, entries F)) (nodup_definitions M) fun F _ => hread F
  -- a definition has blocks, so it has entries
  have hne : ∀ f ∈ functions, f.2 ≠ [] := by
    intro f hf
    obtain ⟨F, hF, rfl⟩ := List.mem_map.mp (hperm'.mem_iff.mp hf)
    have hblocks := (List.mem_filter.mp hF).2
    rw [ne_eq, ← List.length_eq_zero_iff, (hperm F).length_eq, IRFunction.numbers, List.length_map,
      List.length_zipIdx, List.length_eq_zero_iff]
    simpa [IRFunction.isDeclaration] using hblocks
  refine ⟨functions, ?_, ⟨?_, fun f hf => ?_, fun F hF => ⟨entries F, ?_⟩⟩⟩
  · rw [loadBBMapping, bbMapping, hfunctions, Option.map_some, List.filter_eq_self.mpr]
    simpa using hne
  · rw [(hperm'.map Prod.fst).nodup_iff, List.map_map]
    exact nodup_definitions M
  · obtain ⟨F, hF, rfl⟩ := List.mem_map.mp (hperm'.mem_iff.mp hf)
    exact ⟨F, hF, rfl, hperm F⟩
  · exact hperm'.mem_iff.mpr (List.mem_map_of_mem hF)

/-! ### The line table -/

/-- **What the compiler makes of the labels**: the mapped rows in the range of a function are
locations of its instructions, and a function with rows has a mapped one. With one text section the
ranges of two functions have no address in common; with several, no section may have mapped rows
inside the function of another one. -/
structure Compiled (M : IRModule) (obj : ObjectFile) : Prop where
  rows : ∀ fr ∈ parseFunctionRanges obj, ∀ e ∈ obj.lines, fr.start ≤ e.address →
    e.address < fr.stop → e.line ≠ 0 → ∃ F ∈ M.functions, F.name = fr.value ∧
      ∃ b ∈ F.blocks, ∃ I ∈ b.instructions, I.isPHI = false ∧ I.debugLoc = some ⟨F.name, e.line⟩
  mapped : ∀ fr ∈ parseFunctionRanges obj,
    (∃ e ∈ obj.lines, fr.start ≤ e.address ∧ e.address < fr.stop) →
    ∃ e ∈ obj.lines, fr.start ≤ e.address ∧ e.address < fr.stop ∧ e.line ≠ 0

/-- All instructions of a block but its PHIs have the number of the block for a line. -/
theorem debugLoc_labelModule {M : IRModule} {F' : IRFunction}
    (hF' : F' ∈ (labelModule M).functions) {b : IRBlock} (hb : b ∈ F'.blocks) {I : IRInstruction}
    (hI : I ∈ b.instructions) (hPHI : I.isPHI = false) : ∃ F ∈ M.definitions, F.name = F'.name ∧
      ∃ idx < F.blocks.length, I.debugLoc = some ⟨F.name, idx + 1⟩ := by
  obtain ⟨F, hF, rfl⟩ := List.mem_map.mp hF'
  obtain ⟨⟨b₀, idx⟩, hb₀, rfl⟩ := List.mem_map.mp hb
  obtain ⟨I₀, -, rfl⟩ := List.mem_map.mp hI
  have hidx := List.mem_zipIdx' hb₀
  have hdefined : F ∈ M.definitions := by
    refine List.mem_filter.mpr ⟨hF, ?_⟩
    simpa [IRFunction.isDeclaration] using List.ne_nil_of_length_pos (by omega)
  refine ⟨F, hdefined, rfl, idx, hidx.1, ?_⟩
  rw [labelInstruction] at hPHI ⊢
  split_ifs at hPHI ⊢ with h
  · simp [h] at hPHI
  · rfl

/-- **The blocks in the line table** are blocks of the module. -/
theorem Compiled.block {M : IRModule} {obj : ObjectFile} (h : Compiled (labelModule M) obj)
    {sort : List LineEntry → List LineEntry} (hsort : SortsByAddress sort) {func : String}
    {m : FunctionBBMap} (hm : parse sort obj func = some m) {bb : ℕ} (hbb : m bb ≠ []) :
    ∃ F ∈ M.definitions, F.name = func ∧ ∃ idx < F.blocks.length, bb = idx + 1 := by
  obtain ⟨fr, hfr, rfl, hrow, hline⟩ := line_of_ranges hsort obj hm hbb
  obtain ⟨hne, e, he, hstart, hstop, rfl⟩ := hline (h.mapped fr hfr hrow)
  obtain ⟨F', hF', hname, b, hb, I, hI, hPHI, hloc⟩ := h.rows fr hfr e he hstart hstop hne
  obtain ⟨F, hF, hFname, idx, hidx, hloc'⟩ := debugLoc_labelModule hF' hb hI hPHI
  rw [hloc', Option.some.injEq, DebugLoc.mk.injEq] at hloc
  exact ⟨F, hF, hFname.trans hname, idx, hidx, hloc.2.symm⟩

end Bao.Energy
