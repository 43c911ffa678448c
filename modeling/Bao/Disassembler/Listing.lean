import Bao.Disassembler.Parser

/-!
# Listings

The format of `msp430-elf-objdump -d -r`, as objdump writes it: sections with their own addresses,
and lines with an address, a column of bytes and a text. A column that is full after four bytes is
wrapped: the rest of the bytes stands on lines with an address and bytes only. A relocation stands
on a line of its own, behind the first line of the instruction it patches.

A `Listing` says of every line what it is, so its instructions can be read off (`listed`,
`Section.callTargets`); `Listing.text` is what objdump prints.
-/

namespace Bao.Disassembler

/-! ### Lines -/

/-- The digits of a number of 64 bits. -/
structure HexNumber where
  digits : List Char
  ne_nil : digits ≠ [] := by decide
  isHexDigit : digits.all isHexDigit = true := by decide
  value_lt : hexValue digits < 2 ^ 64 := by decide

/-- Its value. -/
def HexNumber.value (n : HexNumber) : ℕ := hexValue n.digits

/-- A byte of a column, and the number of spaces behind it. -/
structure ByteCell where
  high : Char
  low : Char
  gap : ℕ := 1
  high_isHexDigit : isHexDigit high = true := by decide
  low_isHexDigit : isHexDigit low = true := by decide

/-- Its text. -/
def ByteCell.text (cell : ByteCell) : List Char :=
  cell.high :: cell.low :: List.replicate cell.gap ' '

/-- An address and a column of bytes. -/
structure ByteLine where
  indent : ℕ := 3
  address : HexNumber
  column : List ByteCell

namespace ByteLine

/-- The number of its bytes. -/
def size (b : ByteLine) : ℕ := b.column.length

/-- The address behind its bytes. -/
def stop (b : ByteLine) : ℕ := b.address.value + b.size

/-- The line up to the tab behind the column. -/
def text (b : ByteLine) : List Char :=
  List.replicate b.indent ' ' ++ b.address.digits ++ ':' :: '\t' :: b.column.flatMap ByteCell.text

end ByteLine

/-- The text of an instruction: a mnemonic, perhaps with a width suffix, and the rest of the line.
-/
structure InstructionText where
  mnemonic : List Char
  suffix : Option (List Char) := none
  operands : List Char := []
  ne_nil : mnemonic ≠ [] := by decide
  isWord : mnemonic.all isWord = true := by decide
  suffix_isWord : suffix.all (·.all Disassembler.isWord) = true := by decide
  operands_isAny : operands.all isAny = true := by decide
  operands_head : operands.head?.any Disassembler.isWord = false := by decide

/-- What follows the mnemonic. -/
def InstructionText.tail (t : InstructionText) : List Char :=
  (t.suffix.elim [] ('.' :: ·)) ++ t.operands

/-- The text of a line: an instruction, or a directive, which does not start with a mnemonic. -/
inductive CodeText
  | instruction (t : InstructionText)
  | directive (text : List Char) (isAny : text.all isAny = true)
      (head : text.head?.any isWord = false)

/-- Its characters. -/
def CodeText.text : CodeText → List Char
  | .instruction t => t.mnemonic ++ t.tail
  | .directive text _ _ => text

/-- A line with bytes and a text. -/
structure CodeLine extends ByteLine where
  code : CodeText
  column_ne_nil : column ≠ [] := by simp

/-- A relocation: `offset: R_type symbol`, with white space around. -/
structure RelocLine where
  indent : List Char := ['\t', '\t', '\t']
  offset : HexNumber
  gap : List Char := [' ']
  type : List Char
  sep : List Char := ['\t']
  symbol : List Char
  indent_isBlank : indent.all isBlank = true := by decide
  gap_isBlank : gap ≠ [] ∧ gap.all isBlank = true := by decide
  type_not_isSpace : type ≠ [] ∧ type.any isSpace = false := by decide
  sep_isBlank : sep ≠ [] ∧ sep.all isBlank = true := by decide
  symbol_not_isSpace : symbol ≠ [] ∧ symbol.any isSpace = false := by decide

/-- Its characters. -/
def RelocLine.text (r : RelocLine) : List Char :=
  r.indent ++ (r.offset.digits ++
    (':' :: (r.gap ++ ('R' :: '_' :: (r.type ++ (r.sep ++ r.symbol))))))

/-- A text that stands on one line and has no tab. -/
def isPlain (s : List Char) : Bool := s.all fun c => c != '\n' && c != '\t'

/-- The lines of a section without bytes: `address <name>:`, a skipped block of zeros, and nothing.
-/
inductive OtherLine
  | label (address : HexNumber) (name : List Char) (isPlain : isPlain name = true)
  | elision
  | blank

/-- Its characters. -/
def OtherLine.text : OtherLine → List Char
  | .label address name _ => address.digits ++ (' ' :: '<' :: (name ++ ['>', ':']))
  | .elision => ['\t', '.', '.', '.']
  | .blank => []

/-- A line of a section. A `wrapped` line continues the bytes of an instruction; the bytes of an
`undecoded` line belong to no instruction. -/
inductive Line
  | other (l : OtherLine)
  | code (c : CodeLine)
  | wrapped (b : ByteLine)
  | undecoded (b : ByteLine)
  | reloc (r : RelocLine)

/-- Its characters. -/
def Line.text : Line → List Char
  | .other l => l.text
  | .code c => c.toByteLine.text ++ '\t' :: c.code.text
  | .wrapped b | .undecoded b => b.text
  | .reloc r => r.text

/-! ### The instructions of a listing -/

/-- An instruction as it is listed. -/
structure ListedInstruction where
  address : ℕ
  size : ℕ
  mnemonic : List Char
deriving DecidableEq

namespace ListedInstruction

/-- The address behind its bytes. -/
def stop (I : ListedInstruction) : ℕ := I.address + I.size

/-- Its bytes cover an offset. -/
def Covers (I : ListedInstruction) (offset : ℕ) : Prop := I.address ≤ offset ∧ offset < I.stop

instance (I : ListedInstruction) (offset : ℕ) : Decidable (I.Covers offset) :=
  inferInstanceAs (Decidable (_ ∧ _))

/-- The instruction with more bytes. -/
def extend (n : ℕ) (I : ListedInstruction) : ListedInstruction := { I with size := I.size + n }

end ListedInstruction

/-- What a listing shows of an instruction. -/
def Instruction.listed (instr : Instruction) : ListedInstruction :=
  ⟨instr.address, instr.size, instr.mnemonic⟩

/-- The instruction of a line with a text: its mnemonic in lower case, without the suffix. -/
def CodeLine.listed (c : CodeLine) : Option ListedInstruction :=
  match c.code with
  | .instruction t => some ⟨c.address.value, c.size, t.mnemonic.map Char.toLower⟩
  | .directive _ _ _ => none

/-- What a line adds to the instructions before it. -/
def listLine (instructions : List ListedInstruction) : Line → List ListedInstruction
  | .code c => instructions ++ c.listed.toList
  | .wrapped b => instructions.modifyLast (.extend b.size)
  | _ => instructions

/-- **The instructions of a section**: those of the lines that start with a mnemonic, in order, with
their own bytes and the wrapped ones. -/
def listed (lines : List Line) : List ListedInstruction := lines.foldl listLine []

/-- The relocations of a section. -/
def relocs (lines : List Line) : List RelocLine :=
  lines.filterMap fun l => match l with
    | .reloc r => some r
    | _ => none

/-- **The target of a call**: the symbol of the last relocation that its bytes cover. -/
def callTarget (rs : List RelocLine) (I : ListedInstruction) : List Char :=
  if I.mnemonic = call then
    ((rs.filter fun r => I.Covers r.offset.value).getLast?.map RelocLine.symbol).getD []
  else []

/-- The address behind a full column of an instruction; relocations may follow it. -/
def fullStop (full : Option ℕ) : Line → Option ℕ
  | .reloc _ => full
  | .code c => if c.listed.isSome ∧ c.size = WrapWidth then some c.stop else none
  | .wrapped b => if b.size = WrapWidth then some b.stop else none
  | _ => none

/-- A wrapped line continues a full column of an instruction. -/
def Wraps : Option ℕ → List Line → Prop
  | _, [] => True
  | full, .wrapped b :: rest =>
    full = some b.address.value ∧ Wraps (fullStop full (.wrapped b)) rest
  | full, l :: rest => Wraps (fullStop full l) rest

/-- No relocation stands before the instruction that it patches. -/
def RelocsFollow : List Line → Prop
  | [] => True
  | .reloc r :: rest => (∀ I ∈ listed rest, ¬I.Covers r.offset.value) ∧ RelocsFollow rest
  | _ :: rest => RelocsFollow rest

/-! ### Listings -/

/-- A section: its instructions stand in the order of their addresses, which may start from zero. -/
structure Section where
  name : List Char
  isPlain : isPlain name = true
  lines : List Line
  wraps : Wraps none lines
  ordered : (listed lines).Pairwise fun I J => I.stop ≤ J.address
  relocsFollow : RelocsFollow lines

namespace Section

/-- What stands before the name of a section. -/
def headerText : List Char := "Disassembly of section ".toList

/-- Its header. -/
def header (S : Section) : List Char := headerText ++ (S.name ++ [':'])

/-- The instructions of the section. -/
def instructions (S : Section) : List ListedInstruction := listed S.lines

/-- The targets of its instructions. -/
def callTargets (S : Section) : List (List Char) := S.instructions.map (callTarget (relocs S.lines))

/-- The lines of the section. -/
def texts (S : Section) : List (List Char) := S.header :: S.lines.map Line.text

end Section

/-- A line before the first section: nothing, or `file:     file format format`. -/
inductive PreambleLine
  | blank
  | fileFormat (file format : List Char) (file_not_isSpace : file.any isSpace = false)
      (format_isPlain : isPlain format = true)

/-- What stands before the name of a format. -/
def PreambleLine.formatText : List Char := "     file format ".toList

/-- Its characters. -/
def PreambleLine.text : PreambleLine → List Char
  | .blank => []
  | .fileFormat file format _ _ => file ++ ':' :: (formatText ++ format)

/-- **A listing.** -/
structure Listing where
  preamble : List PreambleLine
  sections : List Section

/-- The text of lines. -/
def unlines (lines : List (List Char)) : List Char := lines.flatMap (· ++ ['\n'])

namespace Listing

variable (L : Listing)

/-- The lines of the listing up to some sections. -/
def textsBefore (earlier : List Section) : List (List Char) :=
  L.preamble.map PreambleLine.text ++ earlier.flatMap Section.texts

/-- **What objdump prints.** -/
def text : List Char := unlines (L.textsBefore L.sections)

/-- The instructions of the listing. -/
def instructions : List ListedInstruction := L.sections.flatMap Section.instructions

/-- The targets of its instructions. -/
def callTargets : List (List Char) := L.sections.flatMap Section.callTargets

/-- The line `l` stands in the section `S`, behind the lines `pre` of the section and the sections
`earlier`. -/
def At (earlier : List Section) (S : Section) (pre : List Line) (l : Line) : Prop :=
  ∃ later post, L.sections = earlier ++ S :: later ∧ S.lines = pre ++ l :: post

end Listing

end Bao.Disassembler
