import Bao.Addressing.Segments

/-!
# The energy of basic blocks

`bb-energy-analyzer` charges the machine instructions of an object file to basic blocks. The block
of an instruction is found through the line table, in which `AssignBBDebugInfoPass` has put block
indices in place of line numbers. The functions come from the labels of the disassembly, the ranges
of the blocks from the rows of the line table between two labels, and an instruction is charged to a
block if its address is in one of the ranges of the block.

An object file is modelled by its text sections (`TextSection`): labels and instructions as objdump
lists them, and the rows of the line table that belong to the section. The addresses of every
section start from zero; the analyzer sees the listing and the rows of all sections one after the
other, with nothing but the addresses.

`std::sort` on line entries compares addresses only, so the order of rows with one address is not
determined; the sort is a parameter.
-/

namespace Bao.Energy

open Addressing

/-! ### Object files -/

/-- The symbol of a relocation and its addend: `symbol+0xoffset`, or the symbol alone. -/
structure CallTarget where
  symbol : String
  offset : Option ℕ
  deriving DecidableEq

structure Instruction where
  address : ℕ
  /-- In bytes. -/
  size : ℕ
  mnemonic : String
  operands : String
  addrMode : String
  callTarget : CallTarget
  deriving DecidableEq

/-- A row of the line table; line `0` is unmapped. -/
structure LineEntry where
  address : ℕ
  line : ℕ
  deriving DecidableEq

/-- A label line of the disassembly. -/
abbrev Label := ℕ × String

structure TextSection where
  name : String
  labels : List Label
  instructions : List Instruction
  lines : List LineEntry

abbrev ObjectFile := List TextSection

/-- The labels of the disassembly. -/
def ObjectFile.labels (obj : ObjectFile) : List Label := obj.flatMap TextSection.labels

def ObjectFile.instructions (obj : ObjectFile) : List Instruction :=
  obj.flatMap TextSection.instructions

def ObjectFile.lines (obj : ObjectFile) : List LineEntry := obj.flatMap TextSection.lines

def startsWith (s start : String) : Bool := start.toList.isPrefixOf s.toList

/-- Internal labels like `.L4` and `.LCFI0`. -/
def isLocalLabel (label : Label) : Bool := startsWith label.2 "."

/-! ### Call targets -/

/-- `parseFunctionLabels`: a later label at the same address replaces an earlier one. -/
def parseFunctionLabels (labels : List Label) : ℕ → Option String :=
  labels.foldl (fun m label => Function.update m label.1 (some label.2)) fun _ => none

/-- The entry before `upper_bound`: the one with the largest address up to an offset. -/
def floorEntry (m : ℕ → Option String) : ℕ → Option String
  | 0 => m 0
  | n + 1 => (m (n + 1)).orElse fun _ => floorEntry m n

/-- `resolveCallTargets` on one instruction. -/
def resolveCallTarget (offsetToFunc : ℕ → Option String) (instr : Instruction) : Instruction :=
  if instr.mnemonic = "call" ∧ startsWith instr.callTarget.symbol ".text" then
    match floorEntry offsetToFunc (instr.callTarget.offset.getD 0) with
    | some name => { instr with callTarget := ⟨name, none⟩ }
    | none => instr
  else instr

/-- The instructions of the object file, in the order of the listing. -/
def disassemble (obj : ObjectFile) : List Instruction :=
  obj.instructions.map (resolveCallTarget (parseFunctionLabels obj.labels))

/-! ### Functions -/

/-- The end of the lines of an instruction, in columns of four bytes. -/
def instrEnd (instr : Instruction) : ℕ := instr.address + max 4 ((instr.size + 3) / 4 * 4)

def maxAddr (instructions : List Instruction) : ℕ := (instructions.map instrEnd).foldl max 0

/-- The labels that start a function, sorted by address and name. -/
def funcStarts (labels : List Label) : List Label :=
  (labels.filter fun label => !isLocalLabel label).mergeSort fun a b => toLex a ≤ toLex b

/-- `parseFunctionRanges`. -/
def parseFunctionRanges (obj : ObjectFile) : List (Segment String) :=
  (segments (maxAddr obj.instructions) (funcStarts obj.labels)).filter fun fr => fr.start < fr.stop

/-! ### Unmapped lines -/

/-- The block indices around an unmapped row. -/
structure LineContext where
  prevLabeledLine : ℕ
  nextLabeledLine : ℕ
  entryBB : ℕ
  exitBB : ℕ

/-- `HeuristicLineResolver::resolve`. -/
def resolve (rawLine : ℕ) (context : LineContext) : ℕ :=
  if rawLine ≠ 0 then rawLine
  else if context.prevLabeledLine = 0 ∧ context.nextLabeledLine ≠ 0 then context.entryBB
  else if context.prevLabeledLine ≠ 0 ∧ context.nextLabeledLine = 0 then context.exitBB
  else if context.prevLabeledLine ≠ 0 ∧ context.nextLabeledLine ≠ 0 then context.prevLabeledLine
  else 0

/-- The first mapped line of a list of rows, `0` if there is none. -/
def firstLabeled (entries : List LineEntry) : ℕ :=
  ((entries.find? fun e => e.line ≠ 0).map LineEntry.line).getD 0

/-- The loop of `resolveUnmappedLines`: the previous mapped line may be one that was resolved. -/
def resolveFrom (entryBB exitBB : ℕ) : ℕ → List LineEntry → List LineEntry
  | _, [] => []
  | prev, e :: rest =>
    let line := resolve e.line ⟨prev, firstLabeled rest, entryBB, exitBB⟩
    { e with line := line } :: resolveFrom entryBB exitBB (if line ≠ 0 then line else prev) rest

/-- `resolveUnmappedLines` on rows in order. -/
def resolveUnmappedLines (entries : List LineEntry) : List LineEntry :=
  let entryBB := firstLabeled entries
  let exitBB := firstLabeled entries.reverse
  resolveFrom (if entryBB = 0 then 1 else entryBB) (if exitBB = 0 then 1 else exitBB) 0 entries

/-! ### Block ranges -/

/-- Address ranges `[start, end)`. -/
structure AddressRange where
  start : ℕ
  stop : ℕ
  deriving DecidableEq

/-- `bbToAddresses`: the ranges of each block. -/
abbrev FunctionBBMap := ℕ → List AddressRange

/-- Joins a range to the first one that ends where it starts. -/
def mergeRange (startAddr endAddr : ℕ) : List AddressRange → List AddressRange
  | [] => [⟨startAddr, endAddr⟩]
  | range :: ranges =>
    if range.stop = startAddr then { range with stop := endAddr } :: ranges
    else range :: mergeRange startAddr endAddr ranges

/-- The range of a row of the line table. -/
def addRange (m : FunctionBBMap) (seg : Segment ℕ) : FunctionBBMap :=
  if seg.start ≥ seg.stop then m
  else Function.update m seg.value (mergeRange seg.start seg.stop (m seg.value))

/-- The rows in the range of a function. -/
def funcLines (fr : Segment String) (entries : List LineEntry) : List LineEntry :=
  entries.filter fun e => fr.start ≤ e.address ∧ e.address < fr.stop

/-- The ranges of the blocks of a function, given its rows. -/
def buildRanges (stop : ℕ) (entries : List LineEntry) : FunctionBBMap :=
  (segments stop (entries.map fun e => (e.address, e.line))).foldl addRange fun _ => []

variable (sort : List LineEntry → List LineEntry)

/-- The mapped rows of a function. -/
def resolvedLines (obj : ObjectFile) (fr : Segment String) : List LineEntry :=
  resolveUnmappedLines (sort (funcLines fr (sort obj.lines)))

/-- `DWARFParser::parse`: a later function of the same name replaces an earlier one. -/
def parse (obj : ObjectFile) : String → Option FunctionBBMap :=
  (parseFunctionRanges obj).foldl (fun result fr =>
    if funcLines fr (sort obj.lines) = [] then result
    else Function.update result fr.value
      (some (buildRanges fr.stop (resolvedLines sort obj fr)))) fun _ => none

/-- How often an address is charged to a block. -/
def chargeCount (bbMaps : String → Option FunctionBBMap) (func : String) (bb address : ℕ) : ℕ :=
  match bbMaps func with
  | none => 0
  | some m => ((m bb).filter fun range => range.start ≤ address ∧ address < range.stop).length

/-- The energy of a block: for each of its ranges, the costs of the instructions in it. -/
def bbEnergy (bbMaps : String → Option FunctionBBMap) (instructions : List Instruction)
    (cost : Instruction → ℚ) (func : String) (bb : ℕ) : ℚ :=
  match bbMaps func with
  | none => 0
  | some m => ((m bb).map fun range =>
      ((instructions.filter fun i => range.start ≤ i.address ∧ i.address < range.stop).map
        cost).sum).sum

/-- The energy of a block counts every instruction as often as its address is charged. -/
theorem bbEnergy_eq_sum_chargeCount (bbMaps : String → Option FunctionBBMap)
    (instructions : List Instruction) (cost : Instruction → ℚ) (func : String) (bb : ℕ) :
    bbEnergy bbMaps instructions cost func bb =
      (instructions.map fun i => chargeCount bbMaps func bb i.address * cost i).sum := by
  cases hfunc : bbMaps func with
  | none => simp [bbEnergy, chargeCount, hfunc]
  | some m =>
    simp only [bbEnergy, chargeCount, hfunc]
    generalize m bb = ranges
    induction ranges with
    | nil => simp
    | cons range ranges ih =>
      have hrange := List.sum_map_ite (fun i : Instruction => range.start ≤ i.address ∧
        i.address < range.stop)
        cost (fun _ => 0) instructions
      rw [List.map_const', List.sum_replicate, smul_zero, add_zero] at hrange
      rw [List.map_cons, List.sum_cons, ih, ← hrange, ← List.sum_map_add]
      refine congrArg List.sum (List.map_congr_left fun i _ => ?_)
      rw [List.filter_cons]
      by_cases hin : range.start ≤ i.address ∧ i.address < range.stop
      · rw [if_pos hin, if_pos (by simpa using hin), List.length_cons]
        push_cast
        ring
      · rw [if_neg hin, if_neg (by simpa using hin), zero_add]

end Bao.Energy
