import Bao.Text.Pattern

/-!
# The parser of objdump listings

`MSP430Disassembler::parseObjdumpOutput` reads the listing of `msp430-elf-objdump -d -r` line by
line. A line is first tried as a relocation, then as an address, a column of bytes and a text,
divided by tabs. A line with a text gives an instruction if the text starts with a mnemonic; a line
without one extends the last instruction if the column before it was full and the line starts where
that instruction ends.

Strings are lists of characters. Addresses are 64 bits wide and sizes 32; no sum of them wraps for
an object file, so both are natural numbers, but `std::stoull` throws for a number that does not fit
(`stoull`).
-/

namespace Bao.Disassembler

open Text

/-! ### Characters -/

/-- `\s`. -/
def isSpace (c : Char) : Bool := [' ', '\t', '\n', '\x0b', '\x0c', '\r'].contains c

/-- `[0-9a-fA-F]`. -/
def isHexDigit (c : Char) : Bool :=
  c.isDigit || ('a' ≤ c && c ≤ 'f') || ('A' ≤ c && c ≤ 'F')

/-- `\w`. -/
def isWord (c : Char) : Bool := c.isAlphanum || c == '_'

/-- `.`: all characters but the ends of lines. -/
def isAny (c : Char) : Bool := c != '\n' && c != '\r'

/-- The characters that `find_first_not_of(" \t")` skips. -/
def isBlank (c : Char) : Bool := c == ' ' || c == '\t'

def hexDigitValue (c : Char) : ℕ :=
  if c.isDigit then c.toNat - 48 else if c.isLower then c.toNat - 87 else c.toNat - 55

def hexValue (digits : List Char) : ℕ := digits.foldl (fun n c => 16 * n + hexDigitValue c) 0

/-- `std::stoull(digits, nullptr, 16)`. -/
def stoull (digits : List Char) : Option ℕ :=
  if hexValue digits < 2 ^ 64 then some (hexValue digits) else none

/-- The text up to the first `sep`, and the text behind it if there is one. -/
def cut (sep : Char) : List Char → List Char × Option (List Char)
  | [] => ([], none)
  | c :: s => if c = sep then ([], some s) else (c :: (cut sep s).1, (cut sep s).2)

/-- The lines that `std::getline` reads, the first of which starts with `line`. -/
def getlinesFrom (line : List Char) : List Char → List (List Char)
  | [] => if line = [] then [] else [line]
  | c :: s => if c = '\n' then line :: getlinesFrom [] s else getlinesFrom (line ++ [c]) s

def getlines (s : List Char) : List (List Char) := getlinesFrom [] s

/-- Cut off blanks at both ends. -/
def trim (s : List Char) : List Char :=
  ((s.dropWhile isBlank).reverse.dropWhile isBlank).reverse

/-! ### Addressing modes -/

/-- Split at the commas outside of parentheses. -/
def splitOperands : List Char → ℤ → List Char → List (List Char)
  | [], _, current => [current]
  | c :: s, parenDepth, current =>
    if c = '(' then splitOperands s (parenDepth + 1) (current ++ [c])
    else if c = ')' then splitOperands s (parenDepth - 1) (current ++ [c])
    else if c = ',' ∧ parenDepth = 0 then current :: splitOperands s parenDepth []
    else splitOperands s parenDepth (current ++ [c])

/-- `.+\([rR]\d+\)`. -/
def indexedPattern : Pattern :=
  .all [.many1 isAny, .lit '(', .char fun c => c == 'r' || c == 'R', .many1 Char.isDigit, .lit ')']

/-- `[rR]\d+|[sS][pPrR]|[pP][cC]`. -/
def registerPattern : Pattern :=
  .alt (.all [.char fun c => c == 'r' || c == 'R', .many1 Char.isDigit])
    (.alt (.all [.char fun c => c == 's' || c == 'S', .char fun c => "pPrR".toList.contains c])
      (.all [.char fun c => c == 'p' || c == 'P', .char fun c => c == 'c' || c == 'C']))

def parseOperandMode (operand : List Char) : String :=
  if operand = [] then "unknown"
  else if operand.head? = some '#' then "immediate"
  else if operand.head? = some '@' ∧ operand.getLast? = some '+' then "autoincrement"
  else if operand.head? = some '@' then "indirect"
  else if operand.head? = some '&' then "absolute"
  else if (indexedPattern.fullMatch operand).isSome then "indexed"
  else if (registerPattern.fullMatch operand).isSome then "register"
  else "symbolic"

def determineAddressingMode (_mnemonic operands : List Char) : String :=
  if operands = [] then ""
  else "_".intercalate
    ((((splitOperands operands 0 []).map trim).filter (· ≠ [])).map parseOperandMode)

/-! ### Instructions -/

structure Instruction where
  address : ℕ
  /-- In bytes. -/
  size : ℕ
  mnemonic : List Char
  operands : List Char := []
  addrMode : String := ""
  /-- The symbol of the relocation of a call. -/
  callTarget : List Char := []

/-- The mnemonic of a call. -/
def call : List Char := ['c', 'a', 'l', 'l']

/-- Bytes objdump prints per byte column before wrapping onto the next line. -/
def WrapWidth : ℕ := 4

/-- Whole bytes in a byte column. -/
def countBytes (hexBytes : List Char) : ℕ := hexBytes.countP isHexDigit / 2

/-- The search for an instruction over a vector whose last element comes first; the index counts
from the front of the vector. -/
def findCoveringFrom (offset : ℕ) : List Instruction → Option ℕ
  | [] => none
  | it :: earlier =>
    if it.address ≤ offset then
      if offset < it.address + it.size then some earlier.length else none
    else findCoveringFrom offset earlier

/-- **`findInstructionCovering`**: the last instruction that starts at or before `offset`, if its
bytes contain `offset`. -/
def findInstructionCovering (instructions : List Instruction) (offset : ℕ) : Option ℕ :=
  findCoveringFrom offset instructions.reverse

/-! ### Lines -/

/-- `^\s*([0-9a-fA-F]+):$`. -/
def addrPattern : Pattern := .all [.many isSpace, .group 1 (.many1 isHexDigit), .lit ':']

/-- `^[0-9a-fA-F ]*$`. -/
def bytesPattern : Pattern := .many fun c => isHexDigit c || c == ' '

/-- `^(\w+)(?:\.(\w+))?(.*)$`. -/
def mnemonicPattern : Pattern :=
  .all [.group 1 (.many1 isWord), .opt (.all [.lit '.', .group 2 (.many1 isWord)]),
    .group 3 (.many isAny)]

/-- `^\s*([0-9a-fA-F]+):\s+R_\S+\s+(\S+)\s*$`. -/
def relocPattern : Pattern :=
  .all [.many isSpace, .group 1 (.many1 isHexDigit), .lit ':', .many1 isSpace, .lit 'R', .lit '_',
    .many1 fun c => !isSpace c, .many1 isSpace, .group 2 (.many1 fun c => !isSpace c),
    .many isSpace]

/-- The instructions so far, and the bytes on the line before. -/
structure ParserState where
  result : List Instruction := []
  prevColumnBytes : ℕ := 0

/-- A relocation at `offset`: it names the target of the call it patches. -/
def attachRelocation (result : List Instruction) (offset : ℕ) (symbol : List Char) :
    List Instruction :=
  match findInstructionCovering result offset with
  | none => result
  | some target => result.modify target fun instr =>
      if instr.mnemonic = call then { instr with callTarget := symbol } else instr

/-- A line with bytes and no text. -/
def continueInstruction (result : List Instruction) (columnBytes address byteCount : ℕ) :
    List Instruction :=
  if columnBytes = WrapWidth ∧ ∃ back ∈ result.getLast?, back.address + back.size = address then
    result.modifyLast fun back => { back with size := back.size + byteCount }
  else result

/-- The instruction of a text: its mnemonic without the suffix, its operands without the comment. -/
def parseInstruction (address byteCount : ℕ) (text : List Char) : Option Instruction :=
  (mnemonicPattern.fullMatch text).map fun m =>
    let mnemonic := (m 1).map Char.toLower
    let operands := trim (cut ';' (m 3)).1
    { address := address
      size := byteCount
      mnemonic := mnemonic
      operands := operands
      addrMode := determineAddressingMode mnemonic operands }

/-- What follows an address: a column of bytes and, behind a tab, a text. -/
def parseColumn (result : List Instruction) (columnBytes address : ℕ) (rest : List Char) :
    ParserState :=
  let (bytesField, text) := cut '\t' rest
  if (bytesPattern.fullMatch bytesField).isSome then
    let byteCount := countBytes bytesField
    match text with
    | none => ⟨continueInstruction result columnBytes address byteCount, byteCount⟩
    | some text => ⟨result ++ (parseInstruction address byteCount text).toList, byteCount⟩
  else ⟨result, 0⟩

/-- One line. -/
def parseLine (st : ParserState) (line : List Char) : Option ParserState :=
  match relocPattern.fullMatch line with
  | some m => do
    let offset ← stoull (m 1)
    pure { st with result := attachRelocation st.result offset (m 2) }
  | none =>
    match cut '\t' line with
    | (_, none) => pure ⟨st.result, 0⟩
    | (addrField, some rest) =>
      match addrPattern.fullMatch addrField with
      | none => pure ⟨st.result, 0⟩
      | some m => do
        let address ← stoull (m 1)
        pure (parseColumn st.result st.prevColumnBytes address rest)

/-- **`parseObjdumpOutput`**; the result is missing if a number does not fit. -/
def parseObjdumpOutput (objdumpOutput : List Char) : Option (List Instruction) :=
  ((getlines objdumpOutput).foldlM parseLine {}).map ParserState.result

/-- A relocation behind the wrapped bytes of an instruction is not for the call before it. -/
example : (parseObjdumpOutput
    (["   0:\tb0 12 00 00 \tcall\t#0\t\t;", "\t\t\t2: R_MSP430X_ABS16\text2",
      "   4:\t00 18 fa 40 \tmovx.a\t#0,\t4(r10)\t;", "   8:\t00 00 04 00 ",
      "\t\t\t8: R_MSP430X_ABS20_EXT_SRC\tsym"].flatMap (·.toList ++ ['\n']))).map
      (·.map fun instr => (instr.mnemonic, instr.size, instr.callTarget)) =
    some [("call".toList, 4, "ext2".toList), ("movx".toList, 8, [])] := by
  decide +kernel

end Bao.Disassembler
